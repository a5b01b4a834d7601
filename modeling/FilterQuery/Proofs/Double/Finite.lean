import FilterQuery.Json
import FilterQuery.Proofs.Double.Rounding

/-!
# Doubles of JSON numbers

A number in JSON names a finite double or none (`Numeral.isFinite_of_toJsonDouble`). Only a product
can become too large, and every product is looked at; the significand has no more than 64 bits, and
a quotient by a power of ten is smaller than what was divided.
-/

set_option autoImplicit false

namespace FilterQuery

namespace Double

-- nothing else about its value is used, and it is too large to compute with
attribute [local irreducible] scale

theorem isFinite_iff {x : Double} : x.isFinite = true ↔ x.rank < infinityRank := by
  rw [isFinite, decide_eq_true_iff]

/-! ## Rounding stays below infinity -/

theorem roundQuotient_le (n d : Nat) : roundQuotient n d ≤ n / d + 1 := by
  simp only [roundQuotient]
  split <;> omega

/-- A magnitude below `2 ^ 2097` units is not rounded to infinity. -/
theorem nearestRank_lt {num den k : Nat} (hk : k ≤ 2097) (h : num * scale < den * 2 ^ k) :
    nearestRank num den < infinityRank := by
  have hwhole : num * scale / den < 2 ^ k := Nat.div_lt_of_lt_mul h
  have hround := roundQuotient_le (num * scale)
  simp only [nearestRank, infinityRank, Nat.pow_eq]
  generalize hw : num * scale / den = whole at hwhole
  split
  · next hsmall =>
      have hle := hround (den * 2 ^ 0)
      rw [Nat.pow_zero, Nat.mul_one, hw] at hle
      rw [Nat.pow_zero, Nat.mul_one]
      omega
  · next hlarge =>
      have hne : whole ≠ 0 := by omega
      have hlow : 53 ≤ whole.log2 := (Nat.le_log2 hne).mpr (Nat.not_lt.mp hlarge)
      have hhigh : whole.log2 < k := (Nat.log2_lt hne).mpr hwhole
      -- the spare bits are cut off, which leaves 53 of them
      have hquotient : num * scale / (den * 2 ^ (whole.log2 - 52)) < 2 ^ 53 := by
        rw [← Nat.div_div_eq_div_mul, hw]
        refine Nat.div_lt_of_lt_mul ?_
        rw [← Nat.pow_add, show whole.log2 - 52 + 53 = whole.log2 + 1 by omega]
        exact Nat.lt_log2_self
      have hle := hround (den * 2 ^ (whole.log2 - 52))
      omega

theorem isFinite_ofRatio {num den k : Nat} (negative : Bool) (hk : k ≤ 2097)
    (h : num * scale < den * 2 ^ k) : (ofRatio negative num den).isFinite = true := by
  have hrank := nearestRank_lt hk h
  exact isFinite_iff.mpr (Nat.lt_of_le_of_lt (Nat.min_le_left _ _) hrank)

theorem isFinite_ofNat {n : Nat} (negative : Bool) (h : n < 2 ^ 64) :
    (ofNat negative n).isFinite = true := by
  obtain ⟨j, hj, hscale⟩ : ∃ j ≤ 1074, scale = 2 ^ j := ⟨1074, le_rfl, by decide +kernel⟩
  refine isFinite_ofRatio (k := 64 + j) negative (by omega) ?_
  rw [Nat.one_mul, Nat.pow_add, hscale]
  exact Nat.mul_lt_mul_of_pos_right h (Nat.two_pow_pos j)

/-- A finite magnitude is below `2 ^ 2098` units. -/
theorem units_lt {x : Double} (h : x.isFinite = true) : ∃ j ≤ 2045, x.units < 2 ^ 53 * 2 ^ j := by
  have hrank := isFinite_iff.mp h
  simp only [infinityRank, Nat.pow_eq] at hrank
  exact ⟨x.rank / 2 ^ 52 - 1, by omega, unitsOfRank_lt x.rank⟩

theorem le_roundQuotient (n d : Nat) : n / d ≤ roundQuotient n d := by
  simp only [roundQuotient]
  split <;> omega

/-- The rank of two is `1024 * 2 ^ 52`, and no larger natural is rounded below it. -/
theorem le_nearestRank {n : Nat} (h : 2 ≤ n) : 1024 * 2 ^ 52 ≤ nearestRank n 1 := by
  have hscale : scale.log2 = 1074 := by decide +kernel
  have hlog : scale.log2 + 1 ≤ (n * scale).log2 := by
    refine (Nat.le_log2 (Nat.mul_ne_zero (by omega) scale_pos.ne')).mpr ?_
    rw [Nat.pow_succ']
    exact Nat.mul_le_mul h (Nat.log2_self_le scale_pos.ne')
  rw [hscale] at hlog
  have hround := le_roundQuotient (n * scale)
  simp only [nearestRank, Nat.pow_eq, Nat.div_one, Nat.one_mul]
  generalize n * scale = whole at hlog hround
  have hne : whole ≠ 0 := by
    rintro rfl
    rw [Nat.log2_zero] at hlog
    omega
  have hlarge : ¬whole < 2 ^ 53 := by
    have hlow : 2 ^ 53 ≤ whole := (Nat.le_log2 hne).mp (by omega)
    omega
  rw [if_neg hlarge]
  have hquotient : 2 ^ 52 ≤ whole / 2 ^ (whole.log2 - 52) := by
    refine (Nat.le_div_iff_mul_le (Nat.two_pow_pos _)).mpr ?_
    rw [← Nat.pow_add, show 52 + (whole.log2 - 52) = whole.log2 by omega]
    exact Nat.log2_self_le hne
  have hle := hround (2 ^ (whole.log2 - 52))
  omega

theorem two_le_units {n : Nat} (h : 2 ≤ n) : scale * 2 ≤ (ofNat false n).units := by
  have hrank : 1024 * 2 ^ 52 ≤ (ofNat false n).rank :=
    Nat.le_min.mpr ⟨le_nearestRank h, by decide⟩
  have htwo : unitsOfRank (1024 * 2 ^ 52) = scale * 2 := by decide +kernel
  rw [← htwo]
  exact unitsOfRank_strictMono.monotone hrank

theorem isFinite_div {x : Double} (hx : x.isFinite = true) {n : Nat} (hn : 2 ≤ n) :
    (x.div (ofNat false n)).isFinite = true := by
  obtain ⟨j, hj, hunits⟩ := units_lt hx
  rw [div, if_pos hx]
  refine isFinite_ofRatio (k := 52 + j) _ (by omega) ?_
  calc x.units * scale < 2 ^ 53 * 2 ^ j * scale := Nat.mul_lt_mul_of_pos_right hunits scale_pos
    _ = scale * 2 * 2 ^ (52 + j) := by
        rw [Nat.pow_add, Nat.pow_succ]
        ac_rfl
    _ ≤ _ := Nat.mul_le_mul_right _ (two_le_units hn)

end Double

namespace Numeral

theorem gather_lt {m : Nat} (h : m < 2 ^ 64) (ds : List Digit) : (gather m ds).1 < 2 ^ 64 := by
  induction ds generalizing m with
  | nil => exact h
  | cons d ds ih =>
      rw [gather]
      split
      · next hfits => exact ih hfits
      · exact h

theorem isFinite_of_shift {x y : Double} {e : Int} (hx : x.isFinite = true)
    (h : shift x e = some y) : y.isFinite = true := by
  induction x, e using shift.induct <;> rw [shift] at h
  case case1 hsteps hpos z hfinite =>
    rw [if_pos hsteps, if_pos hpos, if_pos hfinite] at h
    exact Option.some.inj h ▸ hfinite
  case case2 hsteps hpos z hlarge =>
    rw [if_pos hsteps, if_pos hpos, if_neg hlarge] at h
    cases h
  case case3 e hsteps hneg =>
    have hten : 2 ≤ Nat.pow 10 e.natAbs :=
      Nat.le_trans (by decide) (Nat.le_self_pow (by omega) 10)
    rw [if_pos hsteps, if_neg hneg] at h
    exact Option.some.inj h ▸ Double.isFinite_div hx hten
  case case4 hsteps hzero =>
    rw [if_neg hsteps, if_pos hzero] at h
    exact Option.some.inj h ▸ hx
  case case5 hsteps hzero hpos =>
    rw [if_neg hsteps, if_neg hzero, if_pos hpos] at h
    cases h
  case case6 hsteps hzero hneg ih =>
    rw [if_neg hsteps, if_neg hzero, if_neg hneg] at h
    exact ih (Double.isFinite_div hx (by decide +kernel)) h

/-- **A JSON number names a finite double or none.** -/
theorem isFinite_of_toJsonDouble {n : Numeral} {x : Double} (h : n.toJsonDouble = some x) :
    x.isFinite = true := by
  have hwhole := gather_lt (Nat.two_pow_pos 64) n.whole
  have hfraction := gather_lt hwhole n.fraction
  simp only [toJsonDouble] at h
  split at h
  · exact Option.some.inj h ▸ Double.isFinite_ofNat _ hwhole
  · obtain ⟨y, hy, rfl⟩ := Option.map_eq_some_iff.mp h
    have hfinite : y.isFinite = true :=
      isFinite_of_shift (Double.isFinite_ofNat false hfraction) hy
    exact hfinite

end Numeral

end FilterQuery
