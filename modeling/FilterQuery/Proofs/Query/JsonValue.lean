import FilterQuery.Proofs.Json.ReadBack
import FilterQuery.Proofs.Query.Literals
import FilterQuery.Query.OfJson

/-!
# JSON values of queries

The JSON value of a query is proper, fixes the query (`Query.toJson_inj`), and is read back, unless
it nests too deep (`Query.ofJson?_toJson`). Floats need a word: JSON writes no infinity, so that a
query is fixed only if its floats are finite, and the reader rounds more than once, so that a float
counts as read back only if its own numeral is.
-/

set_option autoImplicit false

namespace FilterQuery

/-! ## Lists and records -/

theorem eq_of_map_eq {α β : Type} {f : α → β} {as bs : List α}
    (hinj : ∀ a ∈ as, ∀ b ∈ bs, f a = f b → a = b) (h : as.map f = bs.map f) : as = bs := by
  induction as generalizing bs with
  | nil => exact (List.map_eq_nil_iff.mp h.symm).symm
  | cons a as ih =>
      cases bs with
      | nil => cases h
      | cons b bs =>
          obtain ⟨hhead, htail⟩ := List.cons.inj h
          have ha := hinj a List.mem_cons_self b List.mem_cons_self hhead
          have has := ih (fun a ha b hb =>
            hinj a (List.mem_cons_of_mem _ ha) b (List.mem_cons_of_mem _ hb)) htail
          rw [ha, has]

theorem mapM_map_eq_some {α β : Type} {f : α → β} {g : β → Option α} {as : List α}
    (h : ∀ a ∈ as, g (f a) = some a) : (as.map f).mapM g = some as := by
  induction as with
  | nil => rfl
  | cons a as ih =>
      have hhead := h a List.mem_cons_self
      have htail := ih fun a ha => h a (List.mem_cons_of_mem _ ha)
      simp only [List.map_cons, List.mapM_cons, hhead, htail, Option.bind_eq_bind,
        Option.bind_some]
      rfl

namespace Json

theorem record_inj {ms ns : List (String × Json)} (h : record ms = record ns) : ms = ns := by
  refine eq_of_map_eq (fun a _ b _ hab => ?_) (Json.object.inj h)
  obtain ⟨hname, hvalue⟩ := Prod.mk.inj hab
  exact Prod.ext (Option.some.inj hname) hvalue

theorem proper_record {ms : List (String × Json)} (h : ∀ m ∈ ms, Proper m.2) :
    Proper (record ms) := by
  refine .object ?_ ?_
  · intro m hm
    obtain ⟨n, -, rfl⟩ := List.mem_map.mp hm
    rfl
  · intro m hm
    obtain ⟨n, hn, rfl⟩ := List.mem_map.mp hm
    exact h n hn

@[simp] theorem proper_str (s : String) : (str s).Proper := .text s

@[simp] theorem proper_int (i : Int) : (int i).Proper := .number (Numeral.standard_ofInt i)

@[simp] theorem depth_str (s : String) : (str s).depth = 0 := rfl

@[simp] theorem depth_record (ms : List (String × Json)) :
    (record ms).depth = ms.foldr (fun m n => max m.2.depth n) 0 + 1 := by
  rw [record, depth]
  induction ms with
  | nil => rfl
  | cons m ms ih =>
      rw [List.map_cons, membersDepth, List.foldr_cons, Nat.succ.inj ih]

@[simp] theorem exact_str (s : String) : (str s).exact = true := rfl

@[simp] theorem exact_array (items : List Json) : (array items).exact = items.all exact := by
  rw [exact]
  induction items with
  | nil => rfl
  | cons j js ih => rw [itemsExact, ih, List.all_cons]

@[simp] theorem exact_record (ms : List (String × Json)) :
    (record ms).exact = ms.all fun m => m.2.exact := by
  rw [record, exact]
  induction ms with
  | nil => rfl
  | cons m ms ih =>
      obtain ⟨k, j⟩ := m
      rw [List.map_cons, membersExact, ih, List.all_cons]
      simp

theorem depth_le_itemsDepth {j : Json} {items : List Json} (h : j ∈ items) :
    j.depth ≤ itemsDepth items := by
  induction items with
  | nil => cases h
  | cons k ks ih =>
      rw [itemsDepth]
      rcases List.mem_cons.mp h with rfl | h
      · exact Nat.le_max_left _ _
      · exact Nat.le_trans (ih h) (Nat.le_max_right _ _)

theorem itemsDepth_le {items : List Json} {n : Nat} (h : ∀ j ∈ items, j.depth ≤ n) :
    itemsDepth items ≤ n := by
  induction items with
  | nil => exact Nat.zero_le n
  | cons j js ih =>
      have hj := h j List.mem_cons_self
      have hjs := ih fun j hj => h j (List.mem_cons_of_mem _ hj)
      rw [itemsDepth]
      omega

end Json

/-! ## Literals -/

namespace Numeral

/-- Digits whose value fits into the significand are all taken. -/
theorem gather_eq {ds : List Digit} {m : Nat}
    (h : ds.foldl (fun n d => 10 * n + d.val) m < Nat.pow 2 64) :
    gather m ds = (ds.foldl (fun n d => 10 * n + d.val) m, []) := by
  induction ds generalizing m with
  | nil => rfl
  | cons d ds ih =>
      rw [List.foldl_cons] at h ⊢
      have hgrows := Decimal.foldl_eq_add_value (10 * m + d.val) ds
      have hpow : 1 ≤ 10 ^ ds.length := Nat.one_le_pow _ _ (by decide)
      have hle : 10 * m + d.val ≤ (10 * m + d.val) * 10 ^ ds.length :=
        Nat.le_mul_of_pos_right _ hpow
      rw [gather, if_pos (by omega), ih h]

theorem isSome_toJsonDouble_ofInt {i : Int} (h : i.natAbs < Nat.pow 2 64) :
    (ofInt i).toJsonDouble.isSome := by
  have hgather : gather 0 (Decimal.digits i.natAbs) = (i.natAbs, []) := by
    have hvalue := Decimal.value_digits i.natAbs
    rw [Decimal.value] at hvalue
    rw [gather_eq (by rwa [hvalue]), hvalue]
  simp only [toJsonDouble, ofInt, hgather]
  rfl

end Numeral

namespace Literal

/-- A float is finite. -/
def Finite : Literal → Prop
  | .float x => x.isFinite = true
  | _ => True

/-- The numeral that is written for a float is read as the float. -/
def ReadsBack : Literal → Prop
  | .float x => (jsonLayout.numeral x).toJsonDouble = some x
  | _ => True

instance : DecidablePred Finite
  | .float x => inferInstanceAs (Decidable (x.isFinite = true))
  | .string _ | .integer _ | .boolean _ => .isTrue trivial

instance : DecidablePred ReadsBack
  | .float x => inferInstanceAs (Decidable ((jsonLayout.numeral x).toJsonDouble = some x))
  | .string _ | .integer _ | .boolean _ => .isTrue trivial

theorem floatJson_of_finite {x : Double} (h : (Literal.float x).Finite) :
    floatJson x = .number (jsonLayout.numeral x) := if_pos h

theorem proper_toJson (l : Literal) : l.toJson.Proper := by
  cases l with
  | string s => exact Json.proper_record (by simp)
  | integer n => exact Json.proper_record (by simp)
  | float x =>
      have hfloat : (floatJson x).Proper := by
        rw [floatJson]
        split
        · exact .number (jsonLayout.standard_numeral x)
        · exact .null
      exact Json.proper_record (by simp [hfloat])
  | boolean b => exact Json.proper_record (by simp [Json.Proper.bool])

/-- **The JSON of a literal fixes it**, floats bit for bit. -/
theorem toJson_inj {l m : Literal} (hl : l.Finite) (hm : m.Finite) (h : l.toJson = m.toJson) :
    l = m := by
  cases l <;> cases m <;> replace h := Json.record_inj h <;>
    simp only [Json.str, Json.int, List.cons.injEq, Prod.mk.injEq, Json.text.injEq,
      Option.some.injEq, String.reduceEq, and_false, false_and, and_true, true_and,
      Json.number.injEq, Json.bool.injEq] at h
  · rw [h]
  · have hread := congrArg Numeral.toInt? h
    rw [Numeral.toInt?_ofInt, Numeral.toInt?_ofInt] at hread
    rw [Int64.toInt_inj.mp (Option.some.inj hread)]
  · rw [floatJson_of_finite hl, floatJson_of_finite hm] at h
    rw [jsonLayout.numeral_inj (Json.number.inj h)]
  · rw [h]

theorem exact_toJson {l : Literal} (hfinite : l.Finite) (hread : l.ReadsBack) :
    l.toJson.exact := by
  cases l with
  | string s => rfl
  | integer n =>
      have hbound : n.toInt.natAbs < Nat.pow 2 64 := by
        have hlow := n.le_toInt
        have hhigh := n.toInt_lt
        have hpow : Nat.pow 2 64 = 18446744073709551616 := rfl
        omega
      simp [toJson, Json.int, Json.exact, Numeral.isSome_toJsonDouble_ofInt hbound]
  | float x =>
      have hsome : (jsonLayout.numeral x).toJsonDouble.isSome := by
        rw [show (jsonLayout.numeral x).toJsonDouble = some x from hread]
        rfl
      simp [toJson, Json.exact, floatJson_of_finite hfinite, hsome]
  | boolean b => rfl

theorem depth_toJson (l : Literal) : l.toJson.depth = 1 := by
  cases l with
  | string s => rfl
  | integer n => rfl
  | float x =>
      rw [toJson, floatJson]
      split <;> rfl
  | boolean b => rfl

theorem int64?_toInt (n : Int64) : int64? n.toInt = some n := by
  have hlow := n.le_toInt
  have hhigh := n.toInt_lt
  have hmin : Int64.minValue.toInt = -9223372036854775808 := rfl
  have hmax : Int64.maxValue.toInt = 9223372036854775807 := rfl
  rw [int64?, if_pos (by omega), Int64.ofInt_toInt]

/-- **A literal is read back.** -/
theorem ofJson?_toJson (s : Json.Strictness) {l : Literal} (hfinite : l.Finite)
    (hread : l.ReadsBack) : ofJson? s l.toJson = some l := by
  cases l with
  | string s => rfl
  | integer n =>
      change ((Numeral.ofInt n.toInt).toInt?.bind int64?).map Literal.integer = _
      rw [Numeral.toInt?_ofInt, Option.bind_some, int64?_toInt]
      rfl
  | float x =>
      have hread : (jsonLayout.numeral x).toJsonDouble = some x := hread
      rw [toJson, floatJson_of_finite hfinite]
      change (jsonLayout.numeral x).toJsonDouble.map Literal.float = _
      rw [hread]
      rfl
  | boolean b => rfl

end Literal

/-! ## Operands -/

namespace Operator

theorem ofTag?_tag (o : Operator) : ofTag? o.tag = some o := by
  cases o <;> rfl

theorem ofJson?_str (s : Json.Strictness) (o : Operator) : ofJson? s (.str o.tag) = some o :=
  ofTag?_tag o

theorem tag_inj {o p : Operator} (h : o.tag = p.tag) : o = p := by
  have hread := ofTag?_tag o
  rw [h, ofTag?_tag] at hread
  exact (Option.some.inj hread).symm

end Operator

namespace Aggregate

theorem ofJson?_str (s : Json.Strictness) (f : Aggregate) : ofJson? s (.str f.name) = some f := by
  cases f <;> rfl

theorem name_inj {f g : Aggregate} (h : f.name = g.name) : f = g := by
  have hread := ofName?_name f
  rw [h, ofName?_name] at hread
  exact (Option.some.inj hread).symm

end Aggregate

namespace JoinKind

theorem ofJson?_str (s : Json.Strictness) (j : JoinKind) : ofJson? s (.str j.keyword) = some j := by
  cases j <;> rfl

theorem keyword_inj {j k : JoinKind} (h : j.keyword = k.keyword) : j = k := by
  have hread := ofKeyword?_keyword j
  rw [h, ofKeyword?_keyword] at hread
  exact (Option.some.inj hread).symm

end JoinKind

namespace Path

theorem proper_toJson (p : Path) : p.toJson.Proper := by
  have hitems : (Json.array (p.identifiers.map Json.str)).Proper := by
    refine .array fun j hj => ?_
    obtain ⟨s, -, rfl⟩ := List.mem_map.mp hj
    exact .text s
  exact Json.proper_record (by simp [hitems])

theorem toJson_inj {p q : Path} (h : p.toJson = q.toJson) : p = q := by
  replace h := Json.record_inj h
  simp only [List.cons.injEq, Prod.mk.injEq, Json.array.injEq, and_true, true_and] at h
  have hidentifiers := eq_of_map_eq
    (fun s _ t _ hst => Option.some.inj (Json.text.inj hst)) h
  cases p
  cases q
  exact congrArg Path.mk hidentifiers

theorem depth_toJson (p : Path) : p.toJson.depth = 2 := by
  have hitems : Json.itemsDepth (p.identifiers.map Json.str) = 0 := by
    refine Nat.le_zero.mp (Json.itemsDepth_le fun j hj => ?_)
    obtain ⟨s, -, rfl⟩ := List.mem_map.mp hj
    exact Nat.le_refl 0
  simp [toJson, Json.depth, hitems]

theorem exact_toJson (p : Path) : p.toJson.exact := by
  simp [toJson]

theorem ofJson?_toJson (p : Path) : ofJson? p.toJson = some p := by
  have hitems : (p.identifiers.map Json.str).mapM Json.string? = some p.identifiers :=
    mapM_map_eq_some fun s _ => rfl
  change ((p.identifiers.map Json.str).mapM Json.string?).map Path.mk = _
  rw [hitems]
  rfl

end Path

namespace Operand

theorem proper_toJson (o : Operand) : o.toJson.Proper := by
  cases o with
  | path p => exact Json.proper_record (by simp [p.proper_toJson])
  | literal l => exact Json.proper_record (by simp [l.proper_toJson])
  | aggregate f p =>
      have hinner : (Json.record [("function", .str f.name), ("path", p.toJson)]).Proper :=
        Json.proper_record (by simp [p.proper_toJson])
      exact Json.proper_record (by simp [hinner])

theorem toJson_inj {o p : Operand} (ho : ∀ l ∈ o.literals, l.Finite)
    (hp : ∀ l ∈ p.literals, l.Finite) (h : o.toJson = p.toJson) : o = p := by
  cases o <;> cases p <;> replace h := Json.record_inj h <;>
    simp only [List.cons.injEq, Prod.mk.injEq, String.reduceEq, false_and, and_true,
      true_and] at h
  · rw [Path.toJson_inj h]
  · rw [Literal.toJson_inj (ho _ List.mem_cons_self) (hp _ List.mem_cons_self) h]
  · replace h := Json.record_inj h
    simp only [List.cons.injEq, Prod.mk.injEq, Json.str, Json.text.injEq, Option.some.injEq,
      and_true, true_and] at h
    rw [Aggregate.name_inj h.1, Path.toJson_inj h.2]

theorem depth_toJson (o : Operand) : 2 ≤ o.toJson.depth ∧ o.toJson.depth ≤ 4 := by
  cases o with
  | path p => simp [toJson, p.depth_toJson]
  | literal l => simp [toJson, l.depth_toJson]
  | aggregate f p => simp [toJson, p.depth_toJson]

theorem exact_toJson {o : Operand} (hfinite : ∀ l ∈ o.literals, l.Finite)
    (hread : ∀ l ∈ o.literals, l.ReadsBack) : o.toJson.exact := by
  cases o with
  | path p => simp [toJson, p.exact_toJson]
  | literal l =>
      have hl := Literal.exact_toJson (hfinite l List.mem_cons_self) (hread l List.mem_cons_self)
      simp [toJson, hl]
  | aggregate f p =>
      simp [toJson, p.exact_toJson]

/-- **An operand is read back.** -/
theorem ofJson?_toJson (s : Json.Strictness) {o : Operand} (hfinite : ∀ l ∈ o.literals, l.Finite)
    (hread : ∀ l ∈ o.literals, l.ReadsBack) : ofJson? s o.toJson = some o := by
  cases o with
  | path p =>
      change (Path.ofJson? p.toJson).map Operand.path = _
      rw [p.ofJson?_toJson]
      rfl
  | literal l =>
      change (Literal.ofJson? s l.toJson).map Operand.literal = _
      rw [Literal.ofJson?_toJson s (hfinite l List.mem_cons_self) (hread l List.mem_cons_self)]
      rfl
  | aggregate f p =>
      change (do
        let f ← Aggregate.ofJson? s (.str f.name)
        let p ← Path.ofJson? p.toJson
        some (aggregate f p)) = _
      rw [Aggregate.ofJson?_str, p.ofJson?_toJson]
      rfl

theorem listOfJson?_map (s : Json.Strictness) {os : List Operand}
    (hfinite : ∀ o ∈ os, ∀ l ∈ o.literals, l.Finite)
    (hread : ∀ o ∈ os, ∀ l ∈ o.literals, l.ReadsBack) :
    listOfJson? s (.array (os.map toJson)) = some os :=
  mapM_map_eq_some fun o ho => ofJson?_toJson s (hfinite o ho) (hread o ho)

theorem proper_map (os : List Operand) : (Json.array (os.map toJson)).Proper := by
  refine .array fun j hj => ?_
  obtain ⟨o, -, rfl⟩ := List.mem_map.mp hj
  exact o.proper_toJson

end Operand

/-! ## Conditions -/

namespace Condition

theorem listToJson_eq_map (cs : List Condition) : listToJson cs = cs.map toJson := by
  induction cs with
  | nil => rfl
  | cons c cs ih => rw [listToJson, ih, List.map_cons]

theorem mem_literalsOf {c : Condition} {cs : List Condition} (hc : c ∈ cs) {l : Literal}
    (hl : l ∈ c.literals) : l ∈ literalsOf cs := by
  rw [literalsOf_eq_flatMap]
  exact List.mem_flatMap_of_mem hc hl

theorem proper_toJson (c : Condition) : c.toJson.Proper := by
  have hlist : ∀ cs : List Condition, (∀ c ∈ cs, c.toJson.Proper) →
      (Json.array (listToJson cs)).Proper := by
    intro cs hcs
    refine .array fun j hj => ?_
    rw [listToJson_eq_map] at hj
    obtain ⟨c, hc, rfl⟩ := List.mem_map.mp hj
    exact hcs c hc
  induction c using rec' with
  | anyOf cs ih => exact Json.proper_record (by simp [hlist cs ih])
  | allOf cs ih => exact Json.proper_record (by simp [hlist cs ih])
  | compare l o r j =>
      exact Json.proper_record (by
        simp [l.proper_toJson, r.proper_toJson])
  | isIn l vs j =>
      exact Json.proper_record (by
        simp [l.proper_toJson, Operand.proper_map])
  | between l a b j =>
      exact Json.proper_record (by
        simp [l.proper_toJson, a.proper_toJson, b.proper_toJson])
  | nullTest l o j =>
      exact Json.proper_record (by simp [l.proper_toJson])

/-- **The JSON of a condition fixes it.** -/
theorem toJson_inj {c d : Condition} (hc : ∀ l ∈ c.literals, l.Finite)
    (hd : ∀ l ∈ d.literals, l.Finite) (h : c.toJson = d.toJson) : c = d := by
  have hlist : ∀ {cs ds : List Condition},
      (∀ c ∈ cs, ∀ {d : Condition}, (∀ l ∈ c.literals, l.Finite) → (∀ l ∈ d.literals, l.Finite) →
        c.toJson = d.toJson → c = d) →
      (∀ l ∈ literalsOf cs, l.Finite) → (∀ l ∈ literalsOf ds, l.Finite) →
      listToJson cs = listToJson ds → cs = ds := by
    intro cs ds ih hcs hds h
    rw [listToJson_eq_map, listToJson_eq_map] at h
    exact eq_of_map_eq (fun c hc d hd => ih c hc (fun l hl => hcs l (mem_literalsOf hc hl))
      (fun l hl => hds l (mem_literalsOf hd hl))) h
  -- conditions of two kinds differ in the name of the kind
  induction c using rec' generalizing d <;> cases d <;> replace h := Json.record_inj h <;>
    simp only [List.cons.injEq, Prod.mk.injEq, Json.str, Json.text.injEq, Option.some.injEq,
      String.reduceEq, and_false, false_and, and_true, true_and, Json.array.injEq] at h
  case anyOf.anyOf cs ih ds => rw [hlist ih hc hd h]
  case allOf.allOf cs ih ds => rw [hlist ih hc hd h]
  case compare.compare l o r j l' o' r' j' =>
    obtain ⟨hl, ho, hr, hj⟩ := h
    simp only [literals, List.mem_append, or_imp, forall_and] at hc hd
    rw [Operand.toJson_inj hc.1 hd.1 hl, Operator.tag_inj ho, Operand.toJson_inj hc.2 hd.2 hr,
      JoinKind.keyword_inj hj]
  case isIn.isIn l vs j l' vs' j' =>
    obtain ⟨hl, hvs, hj⟩ := h
    simp only [literals, List.mem_append, List.mem_flatMap, or_imp, forall_and,
      forall_exists_index, and_imp] at hc hd
    have hvalues := eq_of_map_eq (fun v hv v' hv' => Operand.toJson_inj
      (fun l hl => hc.2 l v hv hl) (fun l hl => hd.2 l v' hv' hl)) hvs
    rw [Operand.toJson_inj hc.1 hd.1 hl, hvalues, JoinKind.keyword_inj hj]
  case between.between l a b j l' a' b' j' =>
    obtain ⟨hl, ha, hb, hj⟩ := h
    simp only [literals, List.mem_append, or_imp, forall_and] at hc hd
    rw [Operand.toJson_inj hc.1 hd.1 hl, Operand.toJson_inj hc.2.1 hd.2.1 ha,
      Operand.toJson_inj hc.2.2 hd.2.2 hb, JoinKind.keyword_inj hj]
  case nullTest.nullTest l o j l' o' j' =>
    obtain ⟨hl, ho, hj⟩ := h
    rw [Operand.toJson_inj hc hd hl, Operator.tag_inj ho, JoinKind.keyword_inj hj]

/-- Everything in the JSON of a condition is exact. -/
theorem exact_toJson {c : Condition} (hfinite : ∀ l ∈ c.literals, l.Finite)
    (hread : ∀ l ∈ c.literals, l.ReadsBack) : c.toJson.exact := by
  induction c using rec' with
  | anyOf cs ih =>
      have hcs := fun c hc => ih c hc (fun l hl => hfinite l (mem_literalsOf hc hl))
        (fun l hl => hread l (mem_literalsOf hc hl))
      simpa [toJson, listToJson_eq_map] using hcs
  | allOf cs ih =>
      have hcs := fun c hc => ih c hc (fun l hl => hfinite l (mem_literalsOf hc hl))
        (fun l hl => hread l (mem_literalsOf hc hl))
      simpa [toJson, listToJson_eq_map] using hcs
  | compare l o r j =>
      simp only [literals, List.mem_append, or_imp, forall_and] at hfinite hread
      have hl := Operand.exact_toJson hfinite.1 hread.1
      have hr := Operand.exact_toJson hfinite.2 hread.2
      simp [toJson, hl, hr]
  | isIn l vs j =>
      simp only [literals, List.mem_append, List.mem_flatMap, or_imp, forall_and,
        forall_exists_index, and_imp] at hfinite hread
      have hl := Operand.exact_toJson hfinite.1 hread.1
      have hvs := fun v hv => Operand.exact_toJson (fun l hl => hfinite.2 l v hv hl)
        (fun l hl => hread.2 l v hv hl)
      simpa [toJson, hl] using hvs
  | between l a b j =>
      simp only [literals, List.mem_append, or_imp, forall_and] at hfinite hread
      have hl := Operand.exact_toJson hfinite.1 hread.1
      have ha := Operand.exact_toJson hfinite.2.1 hread.2.1
      have hb := Operand.exact_toJson hfinite.2.2 hread.2.2
      simp [toJson, hl, ha, hb]
  | nullTest l o j =>
      have hl := Operand.exact_toJson hfinite hread
      simp [toJson, hl]

theorem depth_toJson_pos (c : Condition) : 0 < c.toJson.depth := by
  cases c <;> exact Nat.succ_pos _

/-- A child nests two levels less: it stands in an array in an object. -/
theorem depth_child {c : Condition} {cs : List Condition} (hc : c ∈ cs) :
    c.toJson.depth + 2 ≤ (anyOf cs).toJson.depth ∧
      c.toJson.depth + 2 ≤ (allOf cs).toJson.depth := by
  have hitems : c.toJson.depth ≤ Json.itemsDepth (listToJson cs) := by
    rw [listToJson_eq_map]
    exact Json.depth_le_itemsDepth (List.mem_map_of_mem hc)
  simp [toJson, Json.depth, hitems]

theorem depth_node_le {cs : List Condition} {n : Nat} (h : ∀ c ∈ cs, c.toJson.depth ≤ n) :
    (anyOf cs).toJson.depth ≤ n + 2 ∧ (allOf cs).toJson.depth ≤ n + 2 := by
  have hitems : Json.itemsDepth (listToJson cs) ≤ n := by
    rw [listToJson_eq_map]
    exact Json.itemsDepth_le (List.forall_mem_map.mpr h)
  simp [toJson, Json.depth, hitems]

/-- Children are read back if each of them is, with one level less than their parent nests. -/
theorem mapM_ofJsonWithin? {cs : List Condition} {depth levels : Nat} (hlevels : depth ≤ levels + 1)
    (hdepth : ∀ c ∈ cs, c.toJson.depth + 2 ≤ depth)
    (h : ∀ c ∈ cs, ∀ n, c.toJson.depth ≤ n + 1 →
      ofJsonWithin? (n + 1) .lenient c.toJson = some c) :
    (listToJson cs).mapM (ofJsonWithin? levels .lenient) = some cs := by
  rw [listToJson_eq_map]
  refine mapM_map_eq_some fun c hc => ?_
  have hc' := hdepth c hc
  obtain ⟨n, rfl⟩ : ∃ n, levels = n + 1 := ⟨levels - 1, by omega⟩
  exact h c hc n (by omega)

/-- **A condition is read back**, with as many levels as it nests. -/
theorem ofJsonWithin?_toJson {c : Condition} (hfinite : ∀ l ∈ c.literals, l.Finite)
    (hread : ∀ l ∈ c.literals, l.ReadsBack) (s : Json.Strictness) {levels : Nat}
    (hlevels : c.toJson.depth ≤ levels + 1) : ofJsonWithin? (levels + 1) s c.toJson = some c := by
  induction c using rec' generalizing s levels with
  | anyOf cs ih =>
      have hcs := mapM_ofJsonWithin? hlevels (fun c hc => (depth_child hc).1) fun c hc n hn =>
        ih c hc (fun l hl => hfinite l (mem_literalsOf hc hl))
          (fun l hl => hread l (mem_literalsOf hc hl)) .lenient hn
      change ((listToJson cs).mapM (ofJsonWithin? levels .lenient)).map anyOf = _
      rw [hcs]
      rfl
  | allOf cs ih =>
      have hcs := mapM_ofJsonWithin? hlevels (fun c hc => (depth_child hc).2) fun c hc n hn =>
        ih c hc (fun l hl => hfinite l (mem_literalsOf hc hl))
          (fun l hl => hread l (mem_literalsOf hc hl)) .lenient hn
      change ((listToJson cs).mapM (ofJsonWithin? levels .lenient)).map allOf = _
      rw [hcs]
      rfl
  | compare l o r j =>
      simp only [literals, List.mem_append, or_imp, forall_and] at hfinite hread
      have hl := Operand.ofJson?_toJson .lenient hfinite.1 hread.1
      have hr := Operand.ofJson?_toJson .lenient hfinite.2 hread.2
      change (do
        let l ← Operand.ofJson? .lenient l.toJson
        let o ← Operator.ofJson? .lenient (.str o.tag)
        let r ← Operand.ofJson? .lenient r.toJson
        let j ← JoinKind.ofJson? .lenient (.str j.keyword)
        some (compare l o r j)) = _
      rw [hl, hr, Operator.ofJson?_str, JoinKind.ofJson?_str]
      rfl
  | isIn l vs j =>
      simp only [literals, List.mem_append, List.mem_flatMap, or_imp, forall_and,
        forall_exists_index, and_imp] at hfinite hread
      have hl := Operand.ofJson?_toJson .lenient hfinite.1 hread.1
      have hvs := Operand.listOfJson?_map .lenient (fun v hv l hl => hfinite.2 l v hv hl)
        (fun v hv l hl => hread.2 l v hv hl)
      change (do
        let l ← Operand.ofJson? .lenient l.toJson
        let vs ← Operand.listOfJson? .lenient (.array (vs.map Operand.toJson))
        let j ← JoinKind.ofJson? .lenient (.str j.keyword)
        some (isIn l vs j)) = _
      rw [hl, hvs, JoinKind.ofJson?_str]
      rfl
  | between l a b j =>
      simp only [literals, List.mem_append, or_imp, forall_and] at hfinite hread
      have hl := Operand.ofJson?_toJson .lenient hfinite.1 hread.1
      have ha := Operand.ofJson?_toJson .lenient hfinite.2.1 hread.2.1
      have hb := Operand.ofJson?_toJson .lenient hfinite.2.2 hread.2.2
      change (do
        let l ← Operand.ofJson? .lenient l.toJson
        let a ← Operand.ofJson? .lenient a.toJson
        let b ← Operand.ofJson? .lenient b.toJson
        let j ← JoinKind.ofJson? .lenient (.str j.keyword)
        some (between l a b j)) = _
      rw [hl, ha, hb, JoinKind.ofJson?_str]
      rfl
  | nullTest l o j =>
      have hl := Operand.ofJson?_toJson .lenient hfinite hread
      change (do
        let l ← Operand.ofJson? .lenient l.toJson
        let o ← Operator.ofJson? .lenient (.str o.tag)
        let j ← JoinKind.ofJson? .lenient (.str j.keyword)
        some (nullTest l o j)) = _
      rw [hl, Operator.ofJson?_str, JoinKind.ofJson?_str]
      rfl

theorem ofJson?_toJson {c : Condition} (hfinite : ∀ l ∈ c.literals, l.Finite)
    (hread : ∀ l ∈ c.literals, l.ReadsBack) : ofJson? c.toJson = some c := by
  obtain ⟨levels, hlevels⟩ := Nat.exists_eq_add_one.mpr c.depth_toJson_pos
  rw [ofJson?, if_pos (exact_toJson hfinite hread), hlevels]
  exact ofJsonWithin?_toJson hfinite hread .strict hlevels.le

end Condition

/-! ## Queries -/

namespace Json

/-- The JSON of a part that may be missing. -/
def orNull {α : Type} (toJson : α → Json) : Option α → Json
  | some a => toJson a
  | none => .null

variable {α : Type} {toJson : α → Json}

theorem proper_orNull (h : ∀ a, (toJson a).Proper) (o : Option α) : (orNull toJson o).Proper := by
  cases o with
  | none => exact .null
  | some a => exact h a

theorem orNull_inj {o p : Option α} (hnull : ∀ a, toJson a ≠ .null)
    (hinj : ∀ a ∈ o, ∀ b ∈ p, toJson a = toJson b → a = b) (h : orNull toJson o = orNull toJson p) :
    o = p := by
  cases o <;> cases p
  · rfl
  · exact absurd h.symm (hnull _)
  · exact absurd h (hnull _)
  · exact congrArg some (hinj _ rfl _ rfl h)

end Json

namespace Query

theorem toJson_eq (q : Query) :
    q.toJson = .record [("where_spec", q.condition.toJson),
      ("having_spec", .orNull Condition.toJson q.having),
      ("group_by", .orNull groupingToJson q.grouping)] := by
  obtain ⟨c, having, grouping⟩ := q
  cases having <;> cases grouping <;> rfl

theorem proper_toJson (q : Query) : q.toJson.Proper := by
  have hgrouping : ∀ items, (groupingToJson items).Proper := fun items =>
    Json.proper_record (by simp [Operand.proper_map])
  rw [toJson_eq]
  exact Json.proper_record (by
    simp [Condition.proper_toJson, Json.proper_orNull Condition.proper_toJson,
      Json.proper_orNull hgrouping])

/-- The literals of the parts of a query. -/
theorem forall_mem_literals {P : Literal → Prop} {q : Query} (h : ∀ l ∈ q.literals, P l) :
    (∀ l ∈ q.condition.literals, P l) ∧ (∀ d ∈ q.having, ∀ l ∈ d.literals, P l) ∧
      ∀ os ∈ q.grouping, ∀ o ∈ os, ∀ l ∈ o.literals, P l := by
  obtain ⟨c, having, grouping⟩ := q
  simp only [literals, groupingLiterals, List.mem_append, or_imp, forall_and] at h
  obtain ⟨hc, hgrouping, hhaving⟩ := h
  refine ⟨hc, ?_, ?_⟩
  · rintro d rfl l hl
    exact hhaving l (by simpa using hl)
  · rintro os rfl o ho l hl
    exact hgrouping l (List.mem_flatMap_of_mem ho hl)

/-- **The JSON of a query fixes it.** -/
theorem toJson_inj {q r : Query} (hq : ∀ l ∈ q.literals, l.Finite) (hr : ∀ l ∈ r.literals, l.Finite)
    (h : q.toJson = r.toJson) : q = r := by
  obtain ⟨hc, hhaving, hgrouping⟩ := forall_mem_literals hq
  obtain ⟨hc', hhaving', hgrouping'⟩ := forall_mem_literals hr
  rw [toJson_eq, toJson_eq] at h
  replace h := Json.record_inj h
  simp only [List.cons.injEq, Prod.mk.injEq, and_true, true_and] at h
  have hcondition := Condition.toJson_inj hc hc' h.1
  have hhavings := Json.orNull_inj (fun c => by cases c <;> nofun)
    (fun c hc d hd => Condition.toJson_inj (hhaving c hc) (hhaving' d hd)) h.2.1
  have hgroupings := Json.orNull_inj nofun
    (fun os hos ps hps heq => by
      replace heq := Json.record_inj heq
      simp only [List.cons.injEq, Prod.mk.injEq, Json.array.injEq, and_true, true_and] at heq
      exact eq_of_map_eq (fun o ho p hp =>
        Operand.toJson_inj (hgrouping os hos o ho) (hgrouping' ps hps p hp)) heq) h.2.2
  cases q
  cases r
  simp_all

theorem conditionOfJson?_toJson {c : Condition} (hfinite : ∀ l ∈ c.literals, l.Finite)
    (hread : ∀ l ∈ c.literals, l.ReadsBack) :
    conditionOfJson? c.toJson = if c.toJson.depth < maxJsonDepth then some c else none := by
  rw [conditionOfJson?, Condition.ofJson?_toJson hfinite hread]

/-- The items to group by never nest too deep. -/
theorem depth_grouping_le (grouping : Option (List Operand)) :
    (Json.orNull groupingToJson grouping).depth ≤ 6 := by
  cases grouping with
  | none => exact Nat.zero_le 6
  | some items =>
      have hitems : Json.itemsDepth (items.map Operand.toJson) ≤ 4 := by
        refine Json.itemsDepth_le fun j hj => ?_
        obtain ⟨o, -, rfl⟩ := List.mem_map.mp hj
        exact o.depth_toJson.2
      simp only [Json.orNull, groupingToJson, Json.depth_record, Json.depth, List.foldr_cons,
        List.foldr_nil]
      omega

theorem groupingOfJson?_orNull {grouping : Option (List Operand)}
    (hfinite : ∀ os ∈ grouping, ∀ o ∈ os, ∀ l ∈ o.literals, l.Finite)
    (hread : ∀ os ∈ grouping, ∀ o ∈ os, ∀ l ∈ o.literals, l.ReadsBack) :
    groupingOfJson? (some (.orNull groupingToJson grouping)) = some grouping := by
  cases grouping with
  | none => rfl
  | some items =>
      have hitems := Operand.listOfJson?_map .strict (hfinite items rfl) (hread items rfl)
      change (Operand.listOfJson? .strict (.array (items.map Operand.toJson))).map some = _
      rw [hitems]
      rfl

theorem havingOfJson?_orNull {having : Option Condition}
    (hfinite : ∀ c ∈ having, ∀ l ∈ c.literals, l.Finite)
    (hread : ∀ c ∈ having, ∀ l ∈ c.literals, l.ReadsBack) :
    havingOfJson? (some (.orNull Condition.toJson having)) =
      if (Json.orNull Condition.toJson having).depth < maxJsonDepth then some having else none := by
  cases having with
  | none => rfl
  | some c =>
      have hc := conditionOfJson?_toJson (hfinite c rfl) (hread c rfl)
      have hsome : havingOfJson? (some c.toJson) = (conditionOfJson? c.toJson).map some := by
        cases c <;> rfl
      rw [Json.orNull, hsome, hc]
      split <;> rfl

/-- **A query is read back**, unless its JSON nests too deep. -/
theorem ofJson?_toJson {q : Query} (hfinite : ∀ l ∈ q.literals, l.Finite)
    (hread : ∀ l ∈ q.literals, l.ReadsBack) :
    ofJson? q.toJson = if q.toJson.depth ≤ maxJsonDepth then some q else none := by
  obtain ⟨hc, hhaving, hgrouping⟩ := forall_mem_literals hfinite
  obtain ⟨hc', hhaving', hgrouping'⟩ := forall_mem_literals hread
  have hcondition := conditionOfJson?_toJson hc hc'
  have hhavings := havingOfJson?_orNull hhaving hhaving'
  have hgroupings := groupingOfJson?_orNull hgrouping hgrouping'
  rw [toJson_eq]
  change (do
    let condition ← conditionOfJson? q.condition.toJson
    let having ← havingOfJson? (some (.orNull Condition.toJson q.having))
    let grouping ← groupingOfJson? (some (.orNull groupingToJson q.grouping))
    some (Query.mk condition having grouping)) = _
  have hdepth := depth_grouping_le q.grouping
  have hmax : maxJsonDepth = 127 := rfl
  simp only [hcondition, hhavings, hgroupings, Json.depth_record, List.foldr_cons, List.foldr_nil]
  by_cases hcondition' : q.condition.toJson.depth < maxJsonDepth
  · by_cases hhaving' : (Json.orNull Condition.toJson q.having).depth < maxJsonDepth
    · refine .trans ?_ (if_pos (by omega)).symm
      rw [if_pos hcondition', if_pos hhaving']
      rfl
    · refine .trans ?_ (if_neg (by omega)).symm
      rw [if_pos hcondition', if_neg hhaving']
      rfl
  · refine .trans ?_ (if_neg (by omega)).symm
    rw [if_neg hcondition']
    rfl

end Query

end FilterQuery
