import FilterQuery.Proofs.Parser.Complete

/-!
# The limits of the parser

Groups may nest `maxNesting` deep, and numbers must be in range. A query that is grammatical but for
these two limits is reported exactly where it breaks them (`problems_of_spells`): at the
parenthesis of every group in `maxNesting` others, and at every number out of range that is not
inside such a group.
-/

set_option autoImplicit false

namespace FilterQuery.Tree

open FilterQuery.Parser

/-- Complaints about tokens at places of their own are at places of their own. -/
theorem pairwise_faults {places : List Place} {ts : List Token} (hts : Spells (slotsOf places) ts)
    (hoffsets : ts.Pairwise fun t u => t.offset < u.offset) :
    (faults places ts).Pairwise fun c d => c.1.offset ≠ d.1.offset := by
  have hlength : ts.length ≤ places.length := by simpa [slotsOf] using hts.length_eq.ge
  have hzip : (places.zip ts).Pairwise fun p q => p.2.offset < q.2.offset := by
    rw [← List.map_snd_zip hlength, List.pairwise_map] at hoffsets
    exact hoffsets
  refine List.pairwise_filterMap.mpr (hzip.imp fun {p q} hlt c hc d hd => ?_)
  obtain ⟨_, -, rfl⟩ := Option.map_eq_some_iff.mp hc
  obtain ⟨_, -, rfl⟩ := Option.map_eq_some_iff.mp hd
  exact Nat.ne_of_lt hlt

/-- **The limits are reported exactly.** Where a grammatical query is written out with growing
offsets, there is one problem for each token at whose place something is wrong, in the order of the
tokens, and no other. -/
theorem problems_of_spells (r : Root) (hr : r.Grammatical) (ts : List Token)
    (hts : Spells r.written ts) (hoffsets : ts.Pairwise fun t u => t.offset < u.offset) (e : Token)
    (he : e.kind = .eof) (more : List Token) :
    (parse (ts ++ e :: more)).2.problems =
      (r.places.zip ts).filterMap fun (place, t) =>
        place.fault?.map fun c => .grammatical (.atToken t (c.message t)) := by
  rw [parse_eq_of_grammatical hr hts he more]
  rw [← r.slotsOf_places] at hts
  rw [Report.problems_blame (pairwise_faults hts hoffsets) fun _ _ => rfl]
  simp [Report.empty, faults, List.map_filterMap, Option.map_map, Function.comp_def]

/-- A comparison in a number of groups. -/
def grouped (c : Comparison) : Nat → Primary
  | 0 => .comparison c
  | n + 1 => .group [[grouped c n]]

theorem grammatical_grouped {c : Comparison} (hc : c.Grammatical) (n : Nat) :
    (grouped c n).Grammatical := by
  induction n with
  | zero => exact .comparison hc
  | succ n ih => exact .group (by simp) (by simp) (by simpa using ih)

/-- Around a grouped comparison stand its parentheses, each pair in those before it. -/
theorem places_grouped (c : Comparison) (n around : Nat) :
    (grouped c n).places around =
      (List.range' around n).map (fun i => ⟨.mark .leftParen, i, true⟩) ++
        (placed (around + n) c.written ++
          (List.range' around n).reverse.map fun i => ⟨.mark .rightParen, i, false⟩) := by
  induction n generalizing around with
  | zero => simp [grouped, Primary.places_comparison]
  | succ n ih =>
      have hinner : Disjunction.places [[grouped c n]] (around + 1) =
          (grouped c n).places (around + 1) := by
        simp [Disjunction.places, Conjunction.places]
      rw [grouped, Primary.places_group, hinner, ih, Nat.add_right_comm]
      simp [List.range'_succ, placed, Nat.add_assoc]

/-- The comparison `a = 99999999999999999999`, with tokens that follow each other. -/
def hugeComparison (offset : Nat) : Comparison where
  join := none
  left := .path [⟨⟨offset, 1, offset + 1⟩, .identifier, "a"⟩]
  test := .compare ⟨⟨offset + 1, 1, offset + 2⟩, .equal, "="⟩
    (.number ⟨⟨offset + 2, 1, offset + 3⟩, .number, "99999999999999999999"⟩)

/-- The comparison in one group too many, and once more after `OR`. -/
def deepRoot : Root := ⟨[[grouped (hugeComparison 129) 129], [.comparison (hugeComparison 262)]],
  none, none⟩

/-- The places of this query. -/
def deepPlaces : List Place :=
  (List.range' 0 129).map (fun i => ⟨.mark .leftParen, i, true⟩) ++
    (placed 129 (hugeComparison 129).written ++
      ((List.range' 0 129).reverse.map (fun i => ⟨.mark .rightParen, i, false⟩) ++
        ⟨.mark .or, 0, false⟩ :: placed 0 (hugeComparison 262).written))

theorem places_deepRoot : deepRoot.places = deepPlaces := by
  simp [Root.places, deepRoot, deepPlaces, Disjunction.places, Conjunction.places, placed,
    places_grouped, Primary.places_comparison, groupingWritten, havingPlaces]

/-- A way to write it. -/
def deepRootTokens : List Token :=
  deepPlaces.zipIdx.map fun (place, i) =>
    match place.slot with
    | .kept t => t
    | .mark k => ⟨⟨i, 1, i + 1⟩, k, "?"⟩

theorem problems_of_spells_deepRoot : deepRoot.Grammatical ∧
    Spells deepRoot.written deepRootTokens ∧
    (deepRootTokens.Pairwise fun t u => t.offset < u.offset) ∧
    (parse (deepRootTokens ++ [.eof ⟨265, 1, 266⟩])).2.problems =
      [.grammatical (.atToken ⟨⟨128, 1, 129⟩, .leftParen, "?"⟩
        "nesting too deep, at most 128 levels are allowed"),
      .grammatical (.atToken ⟨⟨264, 1, 265⟩, .number, "99999999999999999999"⟩
        "numeric literal 99999999999999999999 is out of range")] := by
  have hcomparison : ∀ offset, (hugeComparison offset).Grammatical := by
    simp [hugeComparison, Comparison.Grammatical, Selectable.Grammatical, Test.Grammatical,
      Value.Grammatical, Path.Grammatical, Kind.isComparison]
  have hgrammatical : deepRoot.Grammatical := by
    have hgrouped := grammatical_grouped (hcomparison 129) 129
    refine ⟨⟨by simp [deepRoot], by simp [deepRoot], ?_⟩, by simp [deepRoot], by simp [deepRoot]⟩
    simpa [deepRoot, Primary.grammatical_comparison_iff, hcomparison] using hgrouped
  have hspells : Spells deepRoot.written deepRootTokens := by
    rw [← Root.slotsOf_places, places_deepRoot]
    decide +kernel
  have hoffsets : deepRootTokens.Pairwise fun t u => t.offset < u.offset := by
    have hrange : deepRootTokens.map (fun t => t.offset) = List.range 265 := by decide +kernel
    exact List.pairwise_map.mp (hrange ▸ List.pairwise_lt_range)
  refine ⟨hgrammatical, hspells, hoffsets, ?_⟩
  rw [problems_of_spells deepRoot hgrammatical _ hspells hoffsets _ rfl [], places_deepRoot]
  decide +kernel

end FilterQuery.Tree
