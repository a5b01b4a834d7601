import FilterQuery.Proofs.Parser.Run
import FilterQuery.Proofs.Tree.Places
import Mathlib.Data.Set.Insert

/-!
# Finding what is written

How a production behaves on a part of a tree that is written out. `Finds p a places stops depth`
says: from tokens that stand at `places`, with anything behind them that does not start with one of
the kinds `stops`, the production gives `a`, takes exactly these tokens, and complains about those
at whose place something is wrong, and about nothing else. The kinds in `stops` are those that would
let the production go on, such as a dot after a path or another `AND` after a term. `Accepts` says
it of slots that open no group.

Productions one after the other find one thing after the other (`Finds.bind`), and a list with
separators is found if its items are (`finds_separated`).
-/

set_option autoImplicit false

namespace FilterQuery.Parser

open FilterQuery.Tree

/-! ## Looking ahead -/

/-- The kind of the first token; behind the last one stands the end mark. -/
def headKind : List Token → Kind
  | [] => .eof
  | t :: _ => t.kind

theorem next_kind {ts : List Token} {stop : Token} {depth : Nat} {report : Report}
    (hstop : stop.kind = .eof) : (State.mk ts stop depth report).next.kind = headKind ts := by
  cases ts with
  | nil => exact hstop
  | cons t ts => rfl

theorem secondKind_cons (t : Token) (ts : List Token) (stop : Token) (depth : Nat)
    (report : Report) : (State.mk (t :: ts) stop depth report).secondKind = headKind ts := by
  cases ts <;> rfl

/-- The kind of the first token of slots that stand before a token of the kind `k`. -/
def firstKind : List Slot → Kind → Kind
  | [], k => k
  | slot :: _, _ => slot.kind

theorem headKind_append {slots : List Slot} {ts : List Token} (h : Spells slots ts)
    (tail : List Token) : headKind (ts ++ tail) = firstKind slots (headKind tail) := by
  cases h with
  | nil => rfl
  | cons hslot _ => exact hslot.kind_eq

/-! ## Finding what is written -/

/-- The complaints about tokens that stand at some places. -/
def faults (places : List Place) (ts : List Token) : List (Token × Complaint) :=
  (places.zip ts).filterMap fun (p, t) => p.fault?.map (t, ·)

theorem faults_cons (p : Place) (places : List Place) (t : Token) (ts : List Token) :
    faults (p :: places) (t :: ts) = (p.fault?.map (t, ·)).toList ++ faults places ts := by
  rw [faults, List.zip_cons_cons, List.filterMap_cons]
  dsimp only
  cases p.fault? <;> rfl

theorem faults_append {a b : List Place} {ts us : List Token} (h : Spells (slotsOf a) ts) :
    faults (a ++ b) (ts ++ us) = faults a ts ++ faults b us := by
  have hlength : a.length = ts.length := by simpa [slotsOf] using h.length_eq
  rw [faults, List.zip_append hlength, List.filterMap_append]
  rfl

theorem faults_eq_nil {places : List Place} (h : ∀ p ∈ places, p.fault? = none) (ts : List Token) :
    faults places ts = [] := by
  refine List.filterMap_eq_nil_iff.mpr fun (p, t) hmem => ?_
  exact Option.map_eq_none_iff.mpr (h p (List.of_mem_zip hmem).1)

/-- From tokens that stand at the places the production gives `a` and complains about what is wrong
with them, whatever stands behind them except a token of one of the kinds `stops`. -/
def Finds {α : Type} (p : Parser α) (a : α) (places : List Place) (stops : Set Kind)
    (depth : Nat) : Prop :=
  depth ≤ maxNesting → ∀ (ts tail : List Token) (stop : Token) (report : Report),
    Spells (slotsOf places) ts → stop.kind = .eof → headKind tail ∉ stops →
      p.run ⟨ts ++ tail, stop, depth, report⟩ =
        (a, ⟨tail, stop, depth, report.blame (faults places ts)⟩)

namespace Finds

variable {α β : Type} {p : Parser α} {a : α} {places : List Place} {stops : Set Kind} {depth : Nat}

theorem pure : Finds (Pure.pure a) a [] stops depth := by
  intro _ ts tail stop report hts _ _
  rw [List.forall₂_nil_left_iff.mp hts]
  rfl

theorem mono {stops' : Set Kind} (h : Finds p a places stops depth)
    (hstops : ∀ k ∈ stops, k ∈ stops') : Finds p a places stops' depth :=
  fun hdepth ts tail stop report hts hstop htail =>
    h hdepth ts tail stop report hts hstop fun hk => htail (hstops _ hk)

theorem map {f : α → β} (h : Finds p a places stops depth) :
    Finds (f <$> p) (f a) places stops depth := by
  intro hdepth ts tail stop report hts hstop htail
  rw [run_map, h hdepth ts tail stop report hts hstop htail]

/-- **Productions one after the other**: what the second one reads does not let the first one go
on. -/
theorem bind {f : α → Parser β} {b : β} {places' : List Place} {stops' : Set Kind}
    (hp : Finds p a places stops depth) (hf : Finds (f a) b places' stops' depth)
    (hnext : ∀ k, k ∉ stops' → firstKind (slotsOf places') k ∉ stops) :
    Finds (p >>= f) b (places ++ places') stops' depth := by
  intro hdepth ts tail stop report hts hstop htail
  rw [slotsOf_append] at hts
  obtain ⟨t₁, t₂, rfl, h₁, h₂⟩ := spells_append_iff.mp hts
  have hahead : headKind (t₂ ++ tail) ∉ stops := by
    rw [headKind_append h₂]
    exact hnext _ htail
  rw [List.append_assoc, run_bind, hp hdepth t₁ (t₂ ++ tail) stop report h₁ hstop hahead,
    faults_append h₁, Report.blame_append]
  exact hf hdepth t₂ tail stop _ h₂ hstop htail

/-- A production that takes its tokens whatever follows, and another one after it. -/
theorem bind_closed {f : α → Parser β} {b : β} {places' : List Place} {stops' : Set Kind}
    (hp : Finds p a places ∅ depth) (hf : Finds (f a) b places' stops' depth) :
    Finds (p >>= f) b (places ++ places') stops' depth :=
  hp.bind hf fun _ _ => Set.notMem_empty _

/-- A production whose result is only put into another form afterwards. -/
theorem bind_pure {f : α → Parser β} {b : β} (h : Finds p a places stops depth)
    (hf : f a = Pure.pure b) : Finds (p >>= f) b places stops depth := by
  intro hdepth ts tail stop report hts hstop htail
  rw [run_bind, h hdepth ts tail stop report hts hstop htail, hf, run_pure]

/-- A production that runs like another one where these places are at hand. -/
theorem of_run {q : Parser α}
    (hrun : ∀ (ts tail : List Token) (stop : Token) (report : Report), Spells (slotsOf places) ts →
      stop.kind = .eof → headKind tail ∉ stops →
        p.run ⟨ts ++ tail, stop, depth, report⟩ = q.run ⟨ts ++ tail, stop, depth, report⟩)
    (hq : Finds q a places stops depth) : Finds p a places stops depth := by
  intro hdepth ts tail stop report hts hstop htail
  rw [hrun ts tail stop report hts hstop htail]
  exact hq hdepth ts tail stop report hts hstop htail

end Finds

/-- The production finds `a` where slots are written that open no group. -/
abbrev Accepts {α : Type} (p : Parser α) (a : α) (slots : List Slot) (stops : Set Kind)
    (depth : Nat) : Prop := Finds p a (placed depth slots) stops depth

namespace Accepts

variable {α β : Type} {p : Parser α} {a : α} {slots slots' : List Slot} {stops : Set Kind}
  {depth : Nat} {f : α → Parser β} {b : β} {stops' : Set Kind}

theorem bind (hp : Accepts p a slots stops depth) (hf : Accepts (f a) b slots' stops' depth)
    (hnext : ∀ k, k ∉ stops' → firstKind slots' k ∉ stops) :
    Accepts (p >>= f) b (slots ++ slots') stops' depth := by
  rw [Accepts, placed_append]
  exact Finds.bind hp hf (by rwa [slotsOf_placed])

theorem bind_closed (hp : Accepts p a slots ∅ depth) (hf : Accepts (f a) b slots' stops' depth) :
    Accepts (p >>= f) b (slots ++ slots') stops' depth :=
  hp.bind hf fun _ _ => Set.notMem_empty _

/-- A production that runs like another one where these slots are at hand. -/
theorem of_run {q : Parser α}
    (hrun : ∀ (ts tail : List Token) (stop : Token) (report : Report), Spells slots ts →
      stop.kind = .eof → headKind tail ∉ stops →
        p.run ⟨ts ++ tail, stop, depth, report⟩ = q.run ⟨ts ++ tail, stop, depth, report⟩)
    (hq : Accepts q a slots stops depth) : Accepts p a slots stops depth :=
  Finds.of_run (by rwa [slotsOf_placed]) hq

/-- A production that complains about nothing, because nothing can be wrong with its slots. -/
theorem of_faultless (hslots : ∀ slot ∈ slots, slot.Faultless)
    (h : ∀ (ts tail : List Token) (stop : Token) (report : Report), Spells slots ts →
      stop.kind = .eof → headKind tail ∉ stops →
        p.run ⟨ts ++ tail, stop, depth, report⟩ = (a, ⟨tail, stop, depth, report⟩)) :
    Accepts p a slots stops depth := by
  intro _ ts tail stop report hts hstop htail
  rw [slotsOf_placed] at hts
  rw [faults_eq_nil (forall_mem_placed.mpr fun slot hslot => hslots slot hslot depth)]
  exact h ts tail stop report hts hstop htail

end Accepts

/-! ## Steps -/

section

variable {stops : Set Kind} {depth : Nat}

theorem accepts_advance {t : Token} (ht : t.kind ≠ .number) :
    Accepts advance t [.kept t] ∅ depth := by
  refine .of_faultless (List.forall_mem_singleton.mpr (.kept ht)) ?_
  intro ts tail stop report hts _ _
  obtain ⟨rest, rfl, hrest⟩ := spells_kept_iff.mp hts
  obtain rfl := spells_nil_iff.mp hrest
  rfl

/-- A production that goes on as `q` after a token at a place where nothing is wrong. -/
theorem finds_cons {α : Type} {p q : Parser α} {a : α} {place : Place} {places : List Place}
    (hplace : place.fault? = none)
    (hrun : ∀ s : State, place.slot.FilledBy s.next → p.run s = q.run s.advance)
    (hq : Finds q a places stops depth) : Finds p a (place :: places) stops depth := by
  intro hdepth ts tail stop report hts hstop htail
  obtain ⟨t, rest, ht, hrest, rfl⟩ := List.forall₂_cons_left_iff.mp hts
  have hfaults := faults_cons place places t rest
  rw [hplace, Option.map_none, Option.toList_none, List.nil_append] at hfaults
  rw [hrun _ (by exact ht), hfaults]
  exact hq hdepth rest tail stop report hrest hstop htail

/-- A production that goes on as `q` after a token of the kind `k`. -/
theorem accepts_mark {α : Type} {p q : Parser α} {a : α} {k : Kind} {slots : List Slot}
    (hrun : ∀ s : State, s.next.kind = k → p.run s = q.run s.advance)
    (hq : Accepts q a slots stops depth) : Accepts p a (.mark k :: slots) stops depth :=
  finds_cons (Slot.Faultless.mark k depth) hrun hq

/-- A production that goes on as `q` after the token `t`. -/
theorem accepts_kept {α : Type} {p q : Parser α} {a : α} {t : Token} {slots : List Slot}
    (ht : t.kind ≠ .number) (hrun : ∀ s : State, s.next = t → p.run s = q.run s.advance)
    (hq : Accepts q a slots stops depth) : Accepts p a (.kept t :: slots) stops depth :=
  finds_cons (Slot.Faultless.kept ht depth) hrun hq

/-- A mark is taken without a look at it. -/
theorem accepts_advance_mark {α : Type} {q : Parser α} {a : α} {k : Kind} {slots : List Slot}
    (hq : Accepts q a slots stops depth) :
    Accepts (advance >>= fun _ => q) a (.mark k :: slots) stops depth :=
  accepts_mark (fun _ _ => rfl) hq

theorem accepts_eat (k : Kind) : Accepts (eat k) true [.mark k] ∅ depth := by
  refine .of_faultless (List.forall_mem_singleton.mpr (.mark k)) ?_
  intro ts tail stop report hts _ _
  obtain ⟨t, rest, rfl, ht, hrest⟩ := spells_mark_iff.mp hts
  obtain rfl := spells_nil_iff.mp hrest
  rw [run_eat, if_pos (by exact ht)]
  rfl

theorem accepts_eat_not (k : Kind) : Accepts (eat k) false [] {k} depth := by
  refine .of_faultless nofun ?_
  intro ts tail stop report hts hstop htail
  obtain rfl := spells_nil_iff.mp hts
  have hne : (State.mk tail stop depth report).next.kind ≠ k := by
    rw [next_kind hstop]
    simpa using htail
  rw [List.nil_append, run_eat, if_neg hne]

theorem accepts_sees_not (k : Kind) : Accepts (sees k) false [] {k} depth := by
  refine .of_faultless nofun ?_
  intro ts tail stop report hts hstop htail
  obtain rfl := spells_nil_iff.mp hts
  have hne : (State.mk tail stop depth report).next.kind ≠ k := by
    rw [next_kind hstop]
    simpa using htail
  rw [List.nil_append, run_sees, beq_eq_false_iff_ne.mpr hne]

theorem accepts_expect (k : Kind) (what : Expectation) :
    Accepts (expect k what) true [.mark k] ∅ depth := by
  refine .of_faultless (List.forall_mem_singleton.mpr (.mark k)) ?_
  intro ts tail stop report hts _ _
  obtain ⟨t, rest, rfl, ht, hrest⟩ := spells_mark_iff.mp hts
  obtain rfl := spells_nil_iff.mp hrest
  rw [run_expect, if_pos (by exact ht)]
  rfl

end

/-! ## Lists with separators -/

section

variable {α β : Type} {separator : Kind} {written : α → List Place} {stops : Set Kind} {depth : Nat}

/-- A production that reads one item after the other finds them all, if after an item it ends where
no separator follows and reads the others where one does. The bound on their number is not met. -/
theorem finds_repeated {γ : Type} {repeated : Nat → Parser γ} {item : Parser β}
    {after : Nat → β → Parser γ} {found : α → β} {f : List α → γ}
    (hstep : ∀ fuel, repeated (fuel + 1) = item >>= after fuel)
    (hlast : ∀ fuel x, Finds (after fuel (found x)) (f [x]) [] {separator} depth)
    (hmore : ∀ fuel x xs places stops, Finds (repeated fuel) (f xs) places stops depth →
      Finds (after fuel (found x)) (f (x :: xs)) (⟨.mark separator, depth, false⟩ :: places) stops
        depth)
    (hseparator : separator ∉ stops) {xs : List α} (hne : xs ≠ [])
    (hitem : ∀ x ∈ xs, Finds item (found x) (written x) stops depth) (fuel : Nat)
    (hfuel : xs.length ≤ fuel) :
    Finds (repeated fuel) (f xs) (joinedPlaces separator depth (xs.map written))
      (insert separator stops) depth := by
  induction xs generalizing fuel with
  | nil => exact absurd rfl hne
  | cons x xs ih =>
      obtain ⟨hx, hxs⟩ := List.forall_mem_cons.mp hitem
      obtain ⟨fuel, rfl⟩ : ∃ n, fuel = n + 1 := Nat.exists_eq_succ_of_ne_zero (by
        rintro rfl
        cases hfuel)
      rw [hstep]
      cases xs with
      | nil =>
          have hend : Finds (after fuel (found x)) (f [x]) [] (insert separator stops) depth :=
            (hlast fuel x).mono (by simp)
          rw [List.map_singleton, joinedPlaces_singleton, ← List.append_nil (written x)]
          exact hx.bind hend (by simp +contextual [firstKind, slotsOf])
      | cons next xs =>
          have hothers := ih (List.cons_ne_nil _ _) hxs fuel (Nat.le_of_succ_le_succ hfuel)
          rw [List.map_cons, List.map_cons, joinedPlaces_cons_cons, ← List.map_cons]
          -- the item may not go on into the separator; what follows the list does not matter here
          exact hx.bind (hmore fuel x _ _ _ hothers) fun _ _ => hseparator

/-- Between two parts stands a token, so the tokens at hand, and one more, bound their number. -/
theorem length_le_of_spells_joined {k : Kind} {parts : List (List Slot)} {ts : List Token}
    (h : Spells (joined k parts) ts) (tail : List Token) :
    parts.length ≤ (ts ++ tail).length + 1 := by
  have hlength := length_le_joined k parts
  rw [h.length_eq] at hlength
  simp only [List.length_append]
  omega

variable {item : Parser (Option β)} {found : α → Option β}

theorem finds_chain {xs : List α} (hne : xs ≠ []) (hseparator : separator ∉ stops)
    (hitem : ∀ x ∈ xs, Finds item (found x) (written x) stops depth) (fuel : Nat)
    (hfuel : xs.length ≤ fuel) :
    Finds (chain separator item fuel) (xs.filterMap found)
      (joinedPlaces separator depth (xs.map written)) (insert separator stops) depth := by
  have hstep : ∀ fuel, chain separator item (fuel + 1) = item >>= fun first =>
      eat separator >>= fun b =>
        if b = true then chain separator item fuel >>= fun others => pure (first.toList ++ others)
        else pure first.toList := fun _ => rfl
  -- an item that is not found is left out
  have hcons : ∀ x xs, (x :: xs).filterMap found = (found x).toList ++ xs.filterMap found := by
    intro x xs
    rw [List.filterMap_cons]
    cases found x <;> rfl
  refine finds_repeated (f := fun xs => xs.filterMap found) hstep (fun fuel x => ?_)
    (fun fuel x xs places stops hxs => ?_) hseparator hne hitem fuel hfuel
  · rw [hcons, List.filterMap_nil, List.append_nil]
    exact (accepts_eat_not separator).bind_pure rfl
  · rw [hcons]
    exact Finds.bind_closed (accepts_eat separator) (hxs.bind_pure rfl)

/-- **Items with separators between them.** Those that are not found are left out. -/
theorem finds_separated {xs : List α} (hne : xs ≠ []) (hseparator : separator ∉ stops)
    (hitem : ∀ x ∈ xs, Finds item (found x) (written x) stops depth) :
    Finds (separated separator item) (xs.filterMap found)
      (joinedPlaces separator depth (xs.map written)) (insert separator stops) depth := by
  intro hdepth ts tail stop report hts
  have hfuel : xs.length ≤ (ts ++ tail).length + 1 := by
    rw [slotsOf_joinedPlaces] at hts
    simpa using length_le_of_spells_joined hts tail
  exact finds_chain hne hseparator hitem _ hfuel hdepth ts tail stop report hts

/-- A list of slots whose items are all found. -/
theorem accepts_separated {item : Parser (Option α)} {written : α → List Slot} {xs : List α}
    (hne : xs ≠ []) (hseparator : separator ∉ stops)
    (hitem : ∀ x ∈ xs, Accepts item (some x) (written x) stops depth) :
    Accepts (separated separator item) xs (joined separator (xs.map written))
      (insert separator stops) depth := by
  have hfound : Finds (separated separator item) (xs.filterMap some)
      (joinedPlaces separator depth (xs.map (placed depth ∘ written))) (insert separator stops)
      depth := finds_separated hne hseparator hitem
  rwa [List.filterMap_some, ← List.map_map, ← placed_joined] at hfound

end

end FilterQuery.Parser
