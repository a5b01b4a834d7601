import FilterQuery.Proofs.Token.Tiling
import FilterQuery.Report
import Mathlib.Data.List.Induction

/-!
# Reports put together

What is in a report after problems were added, parser errors offered and other reports merged into
it, in whatever order these came. Problems are appended, so a report need not be sorted before it is
merged. Merging sorts stably: a list is the stable sort of another if it is sorted and, key by key,
holds the same items in the same order (`StablySorts`). That fixes the list, so that merging is
associative for all reports (`Report.merge_assoc`).
-/

set_option autoImplicit false

namespace FilterQuery

/-! ## Stable sorting -/

/-- The items of `ys` are those of `xs` sorted by their keys, and of items with one key the first
in `xs` is the first in `ys`. -/
structure StablySorts {α : Type} (key : α → Nat) (xs ys : List α) : Prop where
  perm : ys.Perm xs
  sorted : ys.Pairwise fun x y => key x ≤ key y
  stable : ∀ k, ys.filter (key · = k) = xs.filter (key · = k)

namespace StablySorts

variable {α : Type} {key : α → Nat} {xs ys zs : List α}

/-- The items with one key are sorted as they are, so they stand in this order in the sorted
list. -/
theorem mergeSort (key : α → Nat) (xs : List α) :
    StablySorts key xs (xs.mergeSort fun x y => key x ≤ key y) := by
  have hperm := xs.mergeSort_perm fun x y => key x ≤ key y
  refine ⟨hperm, Scan.pairwise_mergeSort_key key xs, fun k => ?_⟩
  have hsame : (xs.filter (key · = k)).Pairwise fun x y => decide (key x ≤ key y) = true := by
    refine List.pairwise_of_forall_mem_list fun x hx y hy => decide_eq_true ?_
    have hx := of_decide_eq_true (List.mem_filter.mp hx).2
    have hy := of_decide_eq_true (List.mem_filter.mp hy).2
    exact Nat.le_of_eq (hx.trans hy.symm)
  have hsub : (xs.filter (key · = k)).Sublist (xs.mergeSort fun x y => key x ≤ key y) :=
    List.sublist_mergeSort (Scan.le_key_trans key) (Scan.le_key_total key) hsame
      List.filter_sublist
  have hfilter := hsub.filter (key · = k)
  simp only [List.filter_filter, Bool.and_self] at hfilter
  exact (hfilter.eq_of_length (hperm.filter _).length_eq.symm).symm

/-- The first of two sorted lists with the same items of each key starts with the least key. -/
theorem key_le_of_filter_eq {x y : α} (hy : (y :: ys).Pairwise fun x y => key x ≤ key y)
    (h : (x :: xs).filter (key · = key x) = (y :: ys).filter (key · = key x)) :
    key y ≤ key x := by
  have hx : x ∈ (y :: ys).filter (key · = key x) := h ▸ by simp
  rcases List.mem_cons.mp (List.mem_of_mem_filter hx) with rfl | hmem
  · exact Nat.le_refl _
  · exact List.rel_of_pairwise_cons hy hmem

/-- Sorted lists that agree key by key are equal. -/
theorem eq_of_filter_eq (hxs : xs.Pairwise fun x y => key x ≤ key y)
    (hys : ys.Pairwise fun x y => key x ≤ key y)
    (h : ∀ k, xs.filter (key · = k) = ys.filter (key · = k)) : xs = ys := by
  induction xs generalizing ys with
  | nil =>
      refine (List.eq_nil_iff_forall_not_mem.mpr fun y hy => ?_).symm
      have hmem : y ∈ ys.filter (key · = key y) := List.mem_filter.mpr ⟨hy, by simp⟩
      rw [← h] at hmem
      exact List.not_mem_nil hmem
  | cons x xs ih =>
      cases ys with
      | nil => exact absurd (h (key x)) (by simp)
      | cons y ys =>
          have hkey : key x = key y := Nat.le_antisymm
            (key_le_of_filter_eq hxs (h (key y)).symm) (key_le_of_filter_eq hys (h (key x)))
          have hfirst := h (key x)
          rw [List.filter_cons_of_pos (by simp), List.filter_cons_of_pos (by simp [hkey])] at hfirst
          obtain ⟨rfl, -⟩ := List.cons.inj hfirst
          congr 1
          refine ih hxs.of_cons hys.of_cons fun k => ?_
          by_cases hk : key x = k
          · have hrest := h k
            rw [List.filter_cons_of_pos (by simpa), List.filter_cons_of_pos (by simpa)] at hrest
            exact List.tail_eq_of_cons_eq hrest
          · have hrest := h k
            rwa [List.filter_cons_of_neg (by simpa), List.filter_cons_of_neg (by simpa)] at hrest

/-- There is one stable sort of a list. -/
theorem unique (hys : StablySorts key xs ys) (hzs : StablySorts key xs zs) : ys = zs :=
  eq_of_filter_eq hys.sorted hzs.sorted fun k => (hys.stable k).trans (hzs.stable k).symm

/-- Sorting the front first makes no difference. -/
theorem of_append_left {front : List α} (hfront : StablySorts key xs front)
    (h : StablySorts key (front ++ zs) ys) : StablySorts key (xs ++ zs) ys where
  perm := h.perm.trans (hfront.perm.append_right zs)
  sorted := h.sorted
  stable k := by rw [h.stable, List.filter_append, List.filter_append, hfront.stable]

/-- Sorting the back first makes no difference. -/
theorem of_append_right {back : List α} (hback : StablySorts key zs back)
    (h : StablySorts key (xs ++ back) ys) : StablySorts key (xs ++ zs) ys where
  perm := h.perm.trans (hback.perm.append_left xs)
  sorted := h.sorted
  stable k := by rw [h.stable, List.filter_append, List.filter_append, hback.stable]

end StablySorts

namespace Report

/-! ## Merging -/

theorem stablySorts_merge (a b : Report) :
    StablySorts Problem.offset (a.problems ++ b.problems) (a.merge b).problems :=
  .mergeSort _ _

theorem merge_assoc (a b c : Report) : (a.merge b).merge c = a.merge (b.merge c) := by
  have hleft := (stablySorts_merge a b).of_append_left (stablySorts_merge (a.merge b) c)
  have hright := (stablySorts_merge b c).of_append_right (stablySorts_merge a (b.merge c))
  rw [List.append_assoc] at hleft
  exact congrArg Report.mk (hleft.unique hright)

/-! ## Offering parser errors -/

theorem hasSyntaxAt_addSyntax {r : Report} {e : SyntaxError} {n : Nat} :
    (r.addSyntax e).hasSyntaxAt n = true ↔ r.hasSyntaxAt n = true ∨ e.offset = n := by
  rw [addSyntax]
  split
  · next h =>
      refine ⟨.inl, fun hn => hn.elim id ?_⟩
      rintro rfl
      exact h
  · simp [hasSyntaxAt, add, Problem.isGrammaticalAt]

theorem offer_fst_iff (r : Report) (e : SyntaxError) :
    (r.offer e).1 = true ↔ r.size < (r.offer e).2.size := by
  by_cases h : r.hasSyntaxAt e.offset = true <;> simp [offer, addSyntax, add, size, h]

/-- The report of some parser errors, offered one after the other. -/
def offerAll (es : List SyntaxError) : Report := es.foldl (fun r e => (r.offer e).2) empty

theorem offerAll_concat (es : List SyntaxError) (e : SyntaxError) :
    offerAll (es ++ [e]) = (offerAll es).addSyntax e := by
  rw [offerAll, List.foldl_append]
  rfl

theorem hasSyntaxAt_offerAll {es : List SyntaxError} {n : Nat} :
    (offerAll es).hasSyntaxAt n = true ↔ ∃ e ∈ es, e.offset = n := by
  induction es using List.reverseRecOn with
  | nil => simp [offerAll, hasSyntaxAt, empty]
  | append_singleton es e ih =>
      rw [offerAll_concat, hasSyntaxAt_addSyntax, ih]
      simp [or_and_right, exists_or]

/-- At each place the first error offered is kept. -/
theorem mem_offerAll {es : List SyntaxError} {e : SyntaxError} :
    .grammatical e ∈ (offerAll es).problems ↔ es.find? (·.offset = e.offset) = some e := by
  induction es using List.reverseRecOn with
  | nil => simp [offerAll, empty]
  | append_singleton es last ih =>
      rw [offerAll_concat, List.find?_append, Option.or_eq_some_iff, ← ih, addSyntax,
        List.find?_eq_none]
      by_cases h : (offerAll es).hasSyntaxAt last.offset = true
      · -- the last error comes too late
        rw [if_pos h]
        refine ⟨.inl, fun hmem => hmem.elim id fun ⟨hnone, hlast⟩ => ?_⟩
        obtain ⟨e', he', hoffset⟩ := hasSyntaxAt_offerAll.mp h
        obtain rfl : last = e := List.mem_singleton.mp (List.mem_of_find?_eq_some hlast) |>.symm
        exact absurd hoffset (by simpa using hnone e' he')
      · rw [if_neg h]
        have hnone : ∀ e' ∈ es, e'.offset ≠ last.offset := fun e' he' hoffset =>
          h (hasSyntaxAt_offerAll.mpr ⟨e', he', hoffset⟩)
        simp only [add, List.mem_append, List.mem_singleton, Problem.grammatical.injEq]
        refine or_congr_right ⟨?_, fun ⟨_, hlast⟩ => ?_⟩
        · rintro rfl
          exact ⟨by simpa using hnone, by simp⟩
        · exact (List.mem_singleton.mp (List.mem_of_find?_eq_some hlast))

theorem sublist_offerAll (es : List SyntaxError) :
    (offerAll es).problems.Sublist (es.map .grammatical) := by
  induction es using List.reverseRecOn with
  | nil => exact List.Sublist.slnil
  | append_singleton es e ih =>
      rw [offerAll_concat, addSyntax, List.map_append]
      split
      · exact ih.trans (List.sublist_append_left _ _)
      · exact ih.append (List.Sublist.refl _)

theorem pairwise_offerAll (es : List SyntaxError) :
    (offerAll es).problems.Pairwise fun p q => p.offset ≠ q.offset := by
  induction es using List.reverseRecOn with
  | nil => exact List.Pairwise.nil
  | append_singleton es e ih =>
      rw [offerAll_concat, addSyntax]
      split
      · exact ih
      · next h =>
          refine List.pairwise_append.mpr ⟨ih, List.pairwise_singleton _ _, fun p hp q hq => ?_⟩
          obtain ⟨e', he', rfl⟩ := List.mem_map.mp ((sublist_offerAll es).subset hp)
          obtain rfl := List.mem_singleton.mp hq
          exact fun hoffset => h (hasSyntaxAt_offerAll.mpr ⟨e', he', hoffset⟩)

/-- **What the operations on reports do**, for all reports, however they came about. Merging sorts
the problems of the first report and then those of the second stably by their places; it is
associative; errors offered one after the other have places of their own, at each place the first
offered is kept, and nothing else gets in; and an offer is accepted exactly if the report grows. -/
theorem merge_and_offer :
    (∀ a b : Report,
      StablySorts Problem.offset (a.problems ++ b.problems) (a.merge b).problems) ∧
    (∀ a b c : Report, (a.merge b).merge c = a.merge (b.merge c)) ∧
    (∀ es, (offerAll es).problems.Pairwise (fun p q => p.offset ≠ q.offset) ∧
      (∀ e, .grammatical e ∈ (offerAll es).problems ↔
        es.find? (·.offset = e.offset) = some e) ∧
      (offerAll es).problems.Sublist (es.map .grammatical)) ∧
    (∀ (r : Report) e, (r.offer e).1 = true ↔ r.size < (r.offer e).2.size) :=
  ⟨stablySorts_merge, merge_assoc,
    fun es => ⟨pairwise_offerAll es, fun _ => mem_offerAll, sublist_offerAll es⟩, offer_fst_iff⟩

end Report

end FilterQuery
