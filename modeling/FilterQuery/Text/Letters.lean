/-!
# Letter case

Comparison of words without regard to the case of the letters `A` to `Z`. Other letters differ
from their capitals: `é` and `É` are two different words. Main statements: a word is the same in
capitals (`sameWord_upper`), and words that are the same have their letters at the same places
(`map_isAlpha_of_sameWord`). Both hold because a small letter becomes a capital and every other
character stays (`toUpper_cases`).
-/

set_option autoImplicit false

namespace FilterQuery.Text

/-- The text with the letters `a` to `z` turned into capitals. -/
def upper (s : String) : String := String.ofList (s.toList.map Char.toUpper)

/-- The words are equal up to the case of the letters `A` to `Z`. -/
def sameWord (s t : String) : Bool := s.toList.map Char.toUpper == t.toList.map Char.toUpper

theorem sameWord_iff (s t : String) :
    sameWord s t = true ↔ s.toList.map Char.toUpper = t.toList.map Char.toUpper := by
  simp [sameWord]

theorem sameWord_self (s : String) : sameWord s s = true := by
  simp [sameWord]

/-- A small letter becomes a capital, and every other character stays. -/
theorem toUpper_cases (c : Char) :
    c.isLower = true ∧ c.toUpper.isUpper = true ∧ c.toUpper.isLower = false ∨
      c.isLower = false ∧ c.toUpper = c := by
  -- the code points of the small letters
  by_cases h : 97 ≤ c.toNat ∧ c.toNat < 123
  · have hletters : ∀ n < 26, (Char.ofNat (97 + n)).isLower = true ∧
        (Char.ofNat (97 + n)).toUpper.isUpper = true ∧
          (Char.ofNat (97 + n)).toUpper.isLower = false := by
      decide
    have hc : Char.ofNat (97 + (c.toNat - 97)) = c := by
      rw [Nat.add_sub_cancel' h.1, Char.ofNat_toNat]
    have hletter := hletters (c.toNat - 97) (by omega)
    rw [hc] at hletter
    exact .inl hletter
  · have hoff : ¬ (c.val ≥ 'a'.val ∧ c.val ≤ 'z'.val) := fun ⟨hlow, hhigh⟩ =>
      h ⟨UInt32.le_iff_toNat_le.mp hlow, Nat.lt_succ_of_le (UInt32.le_iff_toNat_le.mp hhigh)⟩
    refine .inr ⟨Bool.eq_false_iff.mpr fun hlower => hoff ?_, dif_neg hoff⟩
    obtain ⟨hlow, hhigh⟩ := Bool.and_eq_true_iff.mp hlower
    exact ⟨of_decide_eq_true hlow, of_decide_eq_true hhigh⟩

theorem toUpper_toUpper (c : Char) : c.toUpper.toUpper = c.toUpper := by
  rcases toUpper_cases c with ⟨-, -, hsmall⟩ | ⟨-, heq⟩
  · rcases toUpper_cases c.toUpper with ⟨hlower, -⟩ | ⟨-, heq⟩
    · rw [hsmall] at hlower
      cases hlower
    · exact heq
  · exact congrArg Char.toUpper heq

theorem isAlpha_toUpper (c : Char) : c.toUpper.isAlpha = c.isAlpha := by
  rcases toUpper_cases c with ⟨hlower, hupper, -⟩ | ⟨-, heq⟩
  · have hbefore : c.isAlpha = true := Bool.or_eq_true_iff.mpr (.inr hlower)
    have hbehind : c.toUpper.isAlpha = true := Bool.or_eq_true_iff.mpr (.inl hupper)
    rw [hbefore, hbehind]
  · rw [heq]

/-- A word is the same in capitals. -/
theorem sameWord_upper (w : String) : sameWord w (upper w) = true := by
  rw [sameWord_iff, upper, String.toList_ofList, List.map_map]
  exact List.map_congr_left fun c _ => (toUpper_toUpper c).symm

theorem upper_eq_of_sameWord {v w : String} (h : sameWord v w = true) : upper v = upper w := by
  rw [upper, upper, (sameWord_iff v w).mp h]

/-- Words that are the same have their letters at the same places. -/
theorem map_isAlpha_of_sameWord {v w : String} (h : sameWord v w = true) :
    v.toList.map Char.isAlpha = w.toList.map Char.isAlpha := by
  have hupper : ∀ s : String,
      s.toList.map Char.isAlpha = (s.toList.map Char.toUpper).map Char.isAlpha := by
    intro s
    rw [List.map_map]
    exact List.map_congr_left fun c _ => (isAlpha_toUpper c).symm
  rw [hupper v, hupper w, (sameWord_iff v w).mp h]

/-- A word without letters is spelled in one way only. -/
theorem eq_of_sameWord {v w : String} (hv : v.toList.any Char.isAlpha = false)
    (h : sameWord v w = true) : w = v := by
  have hself : ∀ s : String, s.toList.any Char.isAlpha = false →
      s.toList.map Char.toUpper = s.toList := by
    intro s hs
    refine (List.map_congr_left fun c hc => ?_).trans (List.map_id _)
    have hc : c.isAlpha = false := by simpa using List.any_eq_false.mp hs c hc
    rcases toUpper_cases c with ⟨hlower, -⟩ | ⟨-, heq⟩
    · exact absurd (Bool.or_eq_true_iff.mpr (.inr hlower)) (Bool.eq_false_iff.mp hc)
    · exact heq
  have hw : w.toList.any Char.isAlpha = false := by
    have hany : (w.toList.map Char.isAlpha).any id = (v.toList.map Char.isAlpha).any id := by
      rw [map_isAlpha_of_sameWord h]
    rw [List.any_map, List.any_map] at hany
    exact hany.trans hv
  rw [← String.toList_inj, ← hself w hw, ← hself v hv, (sameWord_iff v w).mp h]

end FilterQuery.Text
