import FilterQuery.Proofs.Parser.Run

/-!
# Places in a written tree

The slots of a written tree, each with the number of groups around it. Two limits of the parser are
read off a place (`Place.fault?`): a group may not be opened in `maxNesting` others, and a number in
no more groups than these must be in range. `Root.places` are the places of a query, and
`Root.within` is the query without the groups that nest too deep.
-/

set_option autoImplicit false

namespace FilterQuery.Tree

/-! ## Places -/

/-- A slot of a written tree and where it stands. -/
structure Place where
  slot : Slot
  /-- The number of groups around the slot. -/
  around : Nat
  /-- The slot is the parenthesis that opens a group. -/
  opensGroup : Bool
  deriving DecidableEq, Repr

/-- What is wrong with a place: the parenthesis of a group in `maxNesting` others, or a number out
of range, unless it is inside such a group. -/
def Place.fault? (p : Place) : Option Complaint :=
  if p.opensGroup then if p.around = maxNesting then some .tooDeep else none
  else
    match p.slot with
    | .kept t =>
        if t.kind = .number ∧ p.around ≤ maxNesting ∧ ¬InRange t.lexeme then some .outOfRange
        else none
    | .mark _ => none

/-- Nothing can be wrong with the slot, in whatever number of groups it stands. -/
def Slot.Faultless (slot : Slot) : Prop := ∀ n, Place.fault? ⟨slot, n, false⟩ = none

theorem Slot.Faultless.mark (k : Kind) : (Slot.mark k).Faultless := fun _ => rfl

theorem Slot.Faultless.kept {t : Token} (h : t.kind ≠ .number) : (Slot.kept t).Faultless := by
  intro n
  simp [Place.fault?, h]

/-- A number is wrong if it is out of range, unless it is in a group that is too deep. -/
theorem Place.fault?_number {t : Token} (ht : t.kind = .number) {n : Nat} (hn : n ≤ maxNesting) :
    fault? ⟨.kept t, n, false⟩ = if Parser.inRange t.lexeme then none else some .outOfRange := by
  simp only [fault?, ht, hn, ← Parser.inRange_iff]
  cases Parser.inRange t.lexeme <;> rfl

/-- Slots in a number of groups. -/
def placed (n : Nat) (slots : List Slot) : List Place := slots.map fun slot => ⟨slot, n, false⟩

/-- Parts in a number of groups, with a mark of one kind between neighbours. -/
def joinedPlaces (separator : Kind) (n : Nat) (parts : List (List Place)) : List Place :=
  (placed n [.mark separator]).intercalate parts

/-- The slots of some places. -/
def slotsOf (places : List Place) : List Slot := places.map Place.slot

section

variable {n : Nat} {k : Kind}

theorem placed_append (n : Nat) (a b : List Slot) : placed n (a ++ b) = placed n a ++ placed n b :=
  List.map_append

theorem slotsOf_append (a b : List Place) : slotsOf (a ++ b) = slotsOf a ++ slotsOf b :=
  List.map_append

@[simp] theorem slotsOf_placed (n : Nat) (slots : List Slot) :
    slotsOf (placed n slots) = slots := by
  rw [slotsOf, placed, List.map_map]
  exact List.map_id _

@[simp] theorem joinedPlaces_singleton (k : Kind) (n : Nat) (part : List Place) :
    joinedPlaces k n [part] = part := by
  simp [joinedPlaces]

@[simp] theorem joinedPlaces_cons_cons (k : Kind) (n : Nat) (part next : List Place)
    (parts : List (List Place)) :
    joinedPlaces k n (part :: next :: parts) =
      part ++ ⟨.mark k, n, false⟩ :: joinedPlaces k n (next :: parts) := by
  simp [joinedPlaces, placed, List.intercalate_cons_cons]

theorem slotsOf_joinedPlaces (k : Kind) (n : Nat) (parts : List (List Place)) :
    slotsOf (joinedPlaces k n parts) = joined k (parts.map slotsOf) := by
  match parts with
  | [] => rfl
  | [part] => simp
  | part :: next :: parts =>
      have ih := slotsOf_joinedPlaces k n (next :: parts)
      rw [List.map_cons] at ih
      rw [joinedPlaces_cons_cons, List.map_cons, List.map_cons, joined_cons_cons, slotsOf_append,
        ← ih]
      rfl

theorem placed_joined (n : Nat) (k : Kind) (parts : List (List Slot)) :
    placed n (joined k parts) = joinedPlaces k n (parts.map (placed n)) := by
  match parts with
  | [] => rfl
  | [part] => simp
  | part :: next :: parts =>
      have ih := placed_joined n k (next :: parts)
      rw [List.map_cons] at ih
      rw [joined_cons_cons, List.map_cons, List.map_cons, joinedPlaces_cons_cons, placed_append,
        ← ih]
      rfl

theorem forall_mem_joinedPlaces {P : Place → Prop} {parts : List (List Place)}
    (hmark : P ⟨.mark k, n, false⟩) (hparts : ∀ part ∈ parts, ∀ place ∈ part, P place) :
    ∀ place ∈ joinedPlaces k n parts, P place := by
  match parts with
  | [] => nofun
  | [part] => simpa using hparts
  | part :: next :: parts =>
      obtain ⟨hpart, hrest⟩ := List.forall_mem_cons.mp hparts
      rw [joinedPlaces_cons_cons]
      refine List.forall_mem_append.mpr ⟨hpart, List.forall_mem_cons.mpr ⟨hmark, ?_⟩⟩
      exact forall_mem_joinedPlaces hmark hrest

end

/-! ## The places of a tree -/

/-- Conjunctions from the places of their terms. -/
def conjunctionsPlaces (n : Nat) (d : List (List (List Place))) : List Place :=
  joinedPlaces .or n (d.map (joinedPlaces .and n))

/-- The places of a term in a number of groups. -/
def Primary.places : Primary → Nat → List Place :=
  fold
    (fun inner n =>
      ⟨.mark .leftParen, n, true⟩ ::
        (conjunctionsPlaces (n + 1) (inner.map fun c => c.map (· (n + 1))) ++
          placed n [.mark .rightParen]))
    fun c n => placed n c.written

/-- The places of a conjunction. -/
def Conjunction.places (c : Conjunction) (n : Nat) : List Place :=
  joinedPlaces .and n (c.map (Primary.places · n))

/-- The places of a disjunction. -/
def Disjunction.places (d : Disjunction) (n : Nat) : List Place :=
  joinedPlaces .or n (d.map (Conjunction.places · n))

/-- The places of the condition after `HAVING`. -/
def havingPlaces : Option Disjunction → List Place
  | none => []
  | some d => ⟨.mark .having, 0, false⟩ :: Disjunction.places d 0

/-- The places of a query. -/
def Root.places (r : Root) : List Place :=
  Disjunction.places r.condition 0 ++
    (placed 0 (groupingWritten r.grouping) ++ havingPlaces r.having)

theorem Primary.places_comparison (c : Comparison) (n : Nat) :
    places (.comparison c) n = placed n c.written := by
  rw [places, fold_comparison]

theorem Primary.places_group (d : Disjunction) (n : Nat) :
    places (.group d) n =
      ⟨.mark .leftParen, n, true⟩ ::
        (Disjunction.places d (n + 1) ++ placed n [.mark .rightParen]) := by
  rw [places, fold_group, Disjunction.places, conjunctionsPlaces]
  simp only [List.map_map, Function.comp_def]
  rfl

/-- The slots of the places of a disjunction, if those of its terms are the written ones. -/
theorem Disjunction.slotsOf_places {d : Disjunction} {n : Nat}
    (h : ∀ c ∈ d, ∀ p ∈ c, slotsOf (Primary.places p n) = p.written) :
    slotsOf (Disjunction.places d n) = Disjunction.written d := by
  rw [Disjunction.places, slotsOf_joinedPlaces, Disjunction.written, List.map_map]
  refine congrArg _ (List.map_congr_left fun c hc => ?_)
  rw [Function.comp_apply, Conjunction.places, slotsOf_joinedPlaces, Conjunction.written,
    List.map_map]
  exact congrArg _ (List.map_congr_left (h c hc))

theorem Primary.slotsOf_places (p : Primary) (n : Nat) : slotsOf (p.places n) = p.written := by
  induction p using Primary.rec' generalizing n with
  | comparison c => rw [places_comparison, slotsOf_placed, written_comparison]
  | group d ih =>
      have hinner := Disjunction.slotsOf_places fun c hc p hp => ih c hc p hp (n + 1)
      rw [places_group, written_group, ← hinner, slotsOf, List.map_cons, List.map_append]
      rfl

theorem slotsOf_disjunction (d : Disjunction) (n : Nat) :
    slotsOf (Disjunction.places d n) = Disjunction.written d :=
  Disjunction.slotsOf_places fun _ _ p _ => p.slotsOf_places n

theorem slotsOf_havingPlaces (having : Option Disjunction) :
    slotsOf (havingPlaces having) = havingWritten having := by
  cases having with
  | none => rfl
  | some d => exact congrArg (Slot.mark .having :: ·) (slotsOf_disjunction d 0)

/-- **The places of a query are those of its slots.** -/
theorem Root.slotsOf_places (r : Root) : slotsOf r.places = r.written := by
  rw [places, slotsOf_append, slotsOf_append, slotsOf_disjunction, slotsOf_placed,
    slotsOf_havingPlaces, written]

/-! ## Faults -/

/-- Inside a group that is too deep nothing is wrong. -/
theorem Place.fault?_of_deep {p : Place} (h : maxNesting < p.around) : p.fault? = none := by
  rw [fault?]
  split
  · exact if_neg (Nat.ne_of_gt h)
  · split
    · exact if_neg fun hnumber => Nat.not_le_of_gt h hnumber.2.1
    · rfl

/-- What holds of the marks and of the places of all terms holds of those of a disjunction. -/
theorem Disjunction.forall_mem_places {P : Place → Prop} {d : Disjunction} {n : Nat}
    (hmark : ∀ k, P ⟨.mark k, n, false⟩)
    (h : ∀ c ∈ d, ∀ p ∈ c, ∀ place ∈ Primary.places p n, P place) :
    ∀ place ∈ Disjunction.places d n, P place :=
  forall_mem_joinedPlaces (hmark .or) <| List.forall_mem_map.mpr fun c hc =>
    forall_mem_joinedPlaces (hmark .and) <| List.forall_mem_map.mpr (h c hc)

theorem forall_mem_placed {P : Place → Prop} {n : Nat} {slots : List Slot} :
    (∀ place ∈ placed n slots, P place) ↔ ∀ slot ∈ slots, P ⟨slot, n, false⟩ :=
  List.forall_mem_map

/-- What stands in a term is in no fewer groups than the term. -/
theorem Primary.le_around (p : Primary) (n : Nat) : ∀ place ∈ p.places n, n ≤ place.around := by
  induction p using Primary.rec' generalizing n with
  | comparison c =>
      rw [places_comparison]
      exact forall_mem_placed.mpr fun _ _ => Nat.le_refl n
  | group d ih =>
      have hinner := Disjunction.forall_mem_places (fun _ => Nat.le_refl (n + 1))
        fun c hc p hp => ih c hc p hp (n + 1)
      rw [places_group]
      refine List.forall_mem_cons.mpr ⟨Nat.le_refl n, List.forall_mem_append.mpr ⟨?_, ?_⟩⟩
      · exact fun place hplace => Nat.le_of_succ_le (hinner place hplace)
      · exact forall_mem_placed.mpr fun _ _ => Nat.le_refl n

/-- Nothing is wrong inside a group in `maxNesting` others. -/
theorem Disjunction.fault?_of_deep (d : Disjunction) :
    ∀ place ∈ Disjunction.places d (maxNesting + 1), place.fault? = none :=
  forall_mem_places (fun _ => rfl) fun _ _ p _ place hplace =>
    Place.fault?_of_deep (p.le_around _ place hplace)

/-! ## Trees without the groups that nest too deep -/

/-- The term, without groups inside `n` others, unless it is such a group itself. -/
def Primary.within : Nat → Primary → Option Primary
  | _, .comparison c => some (.comparison c)
  | 0, .group _ => none
  | n + 1, .group d => some (.group (d.map fun c => c.filterMap (within n)))

/-- The disjunction without groups inside `n` others. -/
def Disjunction.within (n : Nat) (d : Disjunction) : Disjunction :=
  d.map fun c => c.filterMap (Primary.within n)

/-- The query without groups inside `n` others. -/
def Root.within (n : Nat) (r : Root) : Root :=
  ⟨Disjunction.within n r.condition, r.grouping, r.having.map (Disjunction.within n)⟩

theorem Disjunction.within_eq_of {d : Disjunction} {n : Nat}
    (h : ∀ c ∈ d, ∀ p ∈ c, Primary.within n p = some p) : Disjunction.within n d = d := by
  refine (List.map_congr_left fun c hc => ?_).trans (List.map_id d)
  exact (List.filterMap_congr (h c hc)).trans List.filterMap_some

theorem Primary.within_eq {p : Primary} {n : Nat} (h : p.nesting ≤ n) : p.within n = some p := by
  induction p using Primary.rec' generalizing n with
  | comparison c => cases n <;> rfl
  | group d ih =>
      rw [nesting_group] at h
      cases n with
      | zero => cases h
      | succ n =>
          have hterms := Disjunction.nesting_le_iff.mp (Nat.le_of_succ_le_succ h)
          have hinner := Disjunction.within_eq_of fun c hc p hp => ih c hc p hp (hterms c hc p hp)
          exact congrArg (fun d => some (group d)) hinner

theorem Disjunction.within_eq {d : Disjunction} {n : Nat} (h : Disjunction.nesting d ≤ n) :
    Disjunction.within n d = d :=
  within_eq_of fun c hc p hp => Primary.within_eq (Disjunction.nesting_le_iff.mp h c hc p hp)

/-- Where no groups nest too deep, none are left out. -/
theorem Root.within_eq {r : Root} {n : Nat} (h : r.nesting ≤ n) : r.within n = r := by
  obtain ⟨condition, grouping, having⟩ := r
  obtain ⟨hcondition, hhaving⟩ := Nat.max_le.mp h
  cases having with
  | none => rw [within, Disjunction.within_eq hcondition, Option.map_none]
  | some d => rw [within, Disjunction.within_eq hcondition, Option.map_some,
      Disjunction.within_eq hhaving]

end FilterQuery.Tree
