import FilterQuery.Double.Shortest
import Mathlib.Algebra.Order.Field.Power
import Mathlib.Tactic.FieldSimp
import Mathlib.Tactic.Linarith
import Mathlib.Tactic.Positivity
import Mathlib.Tactic.Ring

/-!
# Shortest decimals round to their number

A decimal rounds to the number of rank `r` if it lies between the middles to the two neighbours of
the number, or on one of them if `r` is even: `RoundsTo r v`, where `v` counts units of `2 ^ -1074`.
No decimal rounds to two numbers (`RoundsTo.unique`). On the grid of the decimals with seventeen
digits the step is shorter than the interval around the number, so that the search for a shortest
decimal comes to an end before its bound and what it finds rounds to the number
(`roundsTo_shortest`).
-/

set_option autoImplicit false

namespace FilterQuery.Double

/-! ## Ranks and magnitudes -/

/-- The distance from the magnitude of a rank to the next one. -/
def gap (r : Nat) : Nat := 2 ^ (r / 2 ^ 52 - 1)

theorem gap_pos (r : Nat) : 0 < gap r := Nat.pow_pos (by decide)

theorem gap_of_lt {r : Nat} (h : r < 2 ^ 52) : gap r = 1 := by
  rw [gap, Nat.div_eq_of_lt h]
  rfl

theorem unitsOfRank_of_lt {r : Nat} (h : r < 2 ^ 52) : unitsOfRank r = r := by
  simp only [unitsOfRank, Nat.pow_eq, if_pos h]

theorem unitsOfRank_eq_mul_gap {r : Nat} (h : 2 ^ 52 ≤ r) :
    unitsOfRank r = (2 ^ 52 + r % 2 ^ 52) * gap r := by
  simp only [unitsOfRank, gap, Nat.pow_eq, if_neg (Nat.not_lt.mpr h)]

theorem unitsOfRank_succ (r : Nat) : unitsOfRank (r + 1) = unitsOfRank r + gap r := by
  by_cases hsmall : r < 2 ^ 52
  · rw [unitsOfRank_of_lt hsmall, gap_of_lt hsmall]
    by_cases hnext : r + 1 < 2 ^ 52
    · rw [unitsOfRank_of_lt hnext]
    · have hlast : r + 1 = 2 ^ 52 := by omega
      rw [hlast]
      decide +kernel
  · have hlarge : 2 ^ 52 ≤ r := Nat.not_lt.mp hsmall
    rw [unitsOfRank_eq_mul_gap hlarge, unitsOfRank_eq_mul_gap (Nat.le_succ_of_le hlarge)]
    by_cases hlast : r % 2 ^ 52 + 1 = 2 ^ 52
    · -- the next binade starts, with twice the distance
      have hmod : (r + 1) % 2 ^ 52 = 0 := by omega
      have hdiv : (r + 1) / 2 ^ 52 - 1 = (r / 2 ^ 52 - 1) + 1 := by omega
      have hgap : gap (r + 1) = 2 * gap r := by rw [gap, gap, hdiv, Nat.pow_succ']
      have hfull : r % 2 ^ 52 = 2 ^ 52 - 1 := by omega
      rw [hmod, hgap, hfull]
      ring
    · have hmod : (r + 1) % 2 ^ 52 = r % 2 ^ 52 + 1 := by omega
      have hdiv : (r + 1) / 2 ^ 52 = r / 2 ^ 52 := by omega
      have hgap : gap (r + 1) = gap r := by rw [gap, gap, hdiv]
      rw [hmod, hgap]
      ring

theorem unitsOfRank_strictMono : StrictMono unitsOfRank := by
  refine strictMono_nat_of_lt_succ fun r => ?_
  have hgap := gap_pos r
  rw [unitsOfRank_succ]
  omega

/-- A magnitude has 53 binary digits. -/
theorem unitsOfRank_lt (r : Nat) : unitsOfRank r < 2 ^ 53 * gap r := by
  by_cases hsmall : r < 2 ^ 52
  · rw [unitsOfRank_of_lt hsmall, gap_of_lt hsmall]
    omega
  · have hdigits : 2 ^ 52 + r % 2 ^ 52 < 2 ^ 53 := by omega
    rw [unitsOfRank_eq_mul_gap (Nat.not_lt.mp hsmall)]
    exact Nat.mul_lt_mul_of_pos_right hdigits (gap_pos r)

/-- Sixteen decimal digits fit into the distances to the two neighbours. -/
theorem unitsOfRank_lt_gaps {r : Nat} (hr : 0 < r) :
    2 * unitsOfRank r < 10 ^ 16 * (gap (r - 1) + gap r) := by
  have hgap := gap_pos r
  by_cases hstart : 2 ^ 52 ≤ r ∧ r % 2 ^ 52 = 0
  · -- the distance below is the shorter one, but the number has no digits after the first
    have hunits := unitsOfRank_eq_mul_gap hstart.1
    rw [hstart.2] at hunits
    omega
  · have hdiv : (r - 1) / 2 ^ 52 = r / 2 ^ 52 := by omega
    have hbelow : gap (r - 1) = gap r := by rw [gap, gap, hdiv]
    have hunits := unitsOfRank_lt r
    omega

/-! ## Rounding -/

/-- The middle between the magnitude of a rank and the one below it. -/
def lowEnd (r : Nat) : ℚ := (unitsOfRank (r - 1) + unitsOfRank r) / 2

/-- The middle between the magnitude of a rank and the one above it. -/
def highEnd (r : Nat) : ℚ := (unitsOfRank r + unitsOfRank (r + 1)) / 2

/-- `v` units are rounded to the number of rank `r`. -/
def RoundsTo (r : Nat) (v : ℚ) : Prop :=
  (lowEnd r < v ∧ v < highEnd r) ∨ r % 2 = 0 ∧ (v = lowEnd r ∨ v = highEnd r)

theorem lowEnd_lt {r : Nat} (hr : 0 < r) : lowEnd r < unitsOfRank r := by
  have hmono : unitsOfRank (r - 1) < unitsOfRank r := unitsOfRank_strictMono (by omega)
  have hmono : (unitsOfRank (r - 1) : ℚ) < unitsOfRank r := by exact_mod_cast hmono
  rw [lowEnd]
  linarith

theorem lt_highEnd (r : Nat) : (unitsOfRank r : ℚ) < highEnd r := by
  have hmono : unitsOfRank r < unitsOfRank (r + 1) := unitsOfRank_strictMono (by omega)
  have hmono : (unitsOfRank r : ℚ) < unitsOfRank (r + 1) := by exact_mod_cast hmono
  rw [highEnd]
  linarith

theorem highEnd_le_lowEnd {r r' : Nat} (h : r < r') : highEnd r ≤ lowEnd r' := by
  have hlow : unitsOfRank r ≤ unitsOfRank (r' - 1) := unitsOfRank_strictMono.monotone (by omega)
  have hhigh : unitsOfRank (r + 1) ≤ unitsOfRank r' := unitsOfRank_strictMono.monotone (by omega)
  have hlow : (unitsOfRank r : ℚ) ≤ unitsOfRank (r' - 1) := by exact_mod_cast hlow
  have hhigh : (unitsOfRank (r + 1) : ℚ) ≤ unitsOfRank r' := by exact_mod_cast hhigh
  rw [highEnd, lowEnd]
  linarith

theorem highEnd_sub_lowEnd {r : Nat} (hr : 0 < r) :
    highEnd r - lowEnd r = (gap (r - 1) + gap r) / 2 := by
  have hbelow := unitsOfRank_succ (r - 1)
  rw [Nat.sub_add_cancel hr] at hbelow
  have hbelow : (unitsOfRank r : ℚ) = unitsOfRank (r - 1) + gap (r - 1) := by
    exact_mod_cast hbelow
  have habove : (unitsOfRank (r + 1) : ℚ) = unitsOfRank r + gap r := by
    exact_mod_cast unitsOfRank_succ r
  rw [highEnd, lowEnd]
  linarith

theorem RoundsTo.bounds {r : Nat} {v : ℚ} (hr : 0 < r) (h : RoundsTo r v) :
    lowEnd r ≤ v ∧ v ≤ highEnd r := by
  have hends := (lowEnd_lt hr).trans (lt_highEnd r)
  rcases h with ⟨hlow, hhigh⟩ | ⟨-, rfl | rfl⟩
  · exact ⟨hlow.le, hhigh.le⟩
  · exact ⟨le_rfl, hends.le⟩
  · exact ⟨hends.le, le_rfl⟩

theorem not_roundsTo_of_lt {r r' : Nat} {v : ℚ} (hr : 0 < r) (hlt : r < r')
    (h : RoundsTo r v) : ¬ RoundsTo r' v := by
  intro h'
  have hv := (h.bounds hr).2
  have hv' := (h'.bounds (by omega)).1
  have hends := highEnd_le_lowEnd hlt
  -- so `v` is an end of both intervals, and both ranks are even
  have heven : r % 2 = 0 := by
    rcases h with ⟨-, hbelow⟩ | ⟨heven, -⟩
    · linarith
    · exact heven
  have heven' : r' % 2 = 0 := by
    rcases h' with ⟨habove, -⟩ | ⟨heven', -⟩
    · linarith
    · exact heven'
  -- but between two even ranks there is another one
  have hfirst := highEnd_le_lowEnd (Nat.lt_succ_self r)
  have hmiddle := (lowEnd_lt (Nat.succ_pos r)).trans (lt_highEnd (r + 1))
  have hsecond := highEnd_le_lowEnd (by omega : r + 1 < r')
  linarith

/-- **Nothing rounds to two numbers.** -/
theorem RoundsTo.unique {r r' : Nat} {v : ℚ} (hr : 0 < r) (hr' : 0 < r') (h : RoundsTo r v)
    (h' : RoundsTo r' v) : r = r' := by
  rcases Nat.lt_trichotomy r r' with hlt | heq | hlt
  · exact absurd h' (not_roundsTo_of_lt hr hlt h)
  · exact heq
  · exact absurd h (not_roundsTo_of_lt hr' hlt h')

/-- The executable test, on quotients. -/
theorem roundsTo_iff {r c s t : Nat} (hs : 0 < s) :
    roundsTo r c s t = true ↔ RoundsTo r (c * (t / s)) := by
  have hs : (0 : ℚ) < s := by exact_mod_cast hs
  -- both sides are compared after a multiplication by `2 * s`
  have hlt : ∀ {a b : ℚ} {m n : Nat}, a * (2 * s) = m → b * (2 * s) = n → (m < n ↔ a < b) := by
    intro a b m n ha hb
    rw [← mul_lt_mul_iff_left₀ (by linarith : (0 : ℚ) < 2 * s), ha, hb, Nat.cast_lt]
  have heq : ∀ {a b : ℚ} {m n : Nat}, a * (2 * s) = m → b * (2 * s) = n → (m = n ↔ a = b) := by
    intro a b m n ha hb
    rw [← mul_left_inj' (by linarith : (2 * s : ℚ) ≠ 0), ha, hb, Nat.cast_inj]
  have hpoint : (c * (t / s) : ℚ) * (2 * s) = (2 * c * t : Nat) := by
    push_cast
    field_simp
  have hlow : lowEnd r * (2 * s) = ((unitsOfRank (r - 1) + unitsOfRank r) * s : Nat) := by
    rw [lowEnd]
    push_cast
    ring
  have hhigh : highEnd r * (2 * s) = ((unitsOfRank r + unitsOfRank (r + 1)) * s : Nat) := by
    rw [highEnd]
    push_cast
    ring
  simp only [roundsTo, RoundsTo, Bool.or_eq_true, Bool.and_eq_true, decide_eq_true_eq, beq_iff_eq]
  rw [hlt hlow hpoint, hlt hpoint hhigh, heq hpoint hlow, heq hpoint hhigh]

/-! ## Decimals on a grid -/

theorem scale_pos : 0 < scale := by decide +kernel

/-- `10 ^ 324` units are more than one. -/
theorem scale_le : scale ≤ 10 ^ 324 := by decide +kernel

-- nothing else about its value is used, and it is too large to compute with
attribute [local irreducible] scale

/-- The decimal `c * 10 ^ k` in units. -/
def decimalUnits (c : Nat) (k : Int) : ℚ := c * (10 ^ k * scale)

/-- The step of a grid, as the quotient of whole numbers by which the search counts. -/
theorem step_eq (k : Int) :
    ((Nat.pow 10 k.toNat * scale : Nat) : ℚ) / (Nat.pow 10 (-k).toNat : Nat) = 10 ^ k * scale := by
  -- one of the two powers is one
  rcases Int.le_total 0 k with hk | hk
  · obtain ⟨n, rfl⟩ := Int.eq_ofNat_of_zero_le hk
    simp
  · obtain ⟨n, hn⟩ := Int.eq_ofNat_of_zero_le (Int.neg_nonneg.mpr hk)
    obtain rfl : k = -n := by omega
    simp [div_eq_mul_inv, mul_comm]

/-- The decimals of a step next to the number, if neither of them rounds to it, are as far from
each other as the ends of the interval around it. -/
theorem nearestStep?_eq_none {tie : Tie} {r s t : Nat} (hr : 0 < r) (hs : 0 < s) (ht : 0 < t)
    (h : nearestStep? tie r s t = none) : highEnd r - lowEnd r ≤ t / s := by
  have hs' : (0 : ℚ) < s := by exact_mod_cast hs
  set down := unitsOfRank r * s / t with hdown
  have hneither : ¬ roundsTo r down s t = true ∧ ¬ roundsTo r (down + 1) s t = true := by
    simp only [nearestStep?, ← hdown] at h
    split at h
    · cases h
    · cases h
    · next hbelow habove => simp [hbelow, habove]
    · split at h
      · cases h
      split at h
      · cases h
      cases tie <;> cases h
  rw [roundsTo_iff hs, roundsTo_iff hs] at hneither
  have hbelow : (down * (t / s) : ℚ) ≤ unitsOfRank r := by
    rw [← mul_div_assoc, div_le_iff₀ hs']
    exact_mod_cast Nat.div_mul_le_self _ _
  have habove : (unitsOfRank r : ℚ) < (down + 1 : Nat) * (t / s) := by
    have hnext := Nat.lt_div_mul_add ht (a := unitsOfRank r * s)
    rw [← hdown, ← Nat.succ_mul] at hnext
    rw [← mul_div_assoc, lt_div_iff₀ hs']
    exact_mod_cast hnext
  have hlow : (down * (t / s) : ℚ) ≤ lowEnd r := by
    by_contra hlt
    exact hneither.1 (.inl ⟨not_le.mp hlt, hbelow.trans_lt (lt_highEnd r)⟩)
  have hhigh : highEnd r ≤ (down + 1 : Nat) * (t / s) := by
    by_contra hlt
    exact hneither.2 (.inl ⟨(lowEnd_lt hr).trans habove, not_le.mp hlt⟩)
  push_cast at hhigh
  linarith

/-- What is found rounds to the number. -/
theorem roundsTo_of_nearestStep? {tie : Tie} {r s t c : Nat} (h : nearestStep? tie r s t = some c) :
    roundsTo r c s t = true := by
  simp only [nearestStep?] at h
  split at h
  · next hdown _ => exact Option.some.inj h ▸ hdown
  · next _ hup => exact Option.some.inj h ▸ hup
  · cases h
  · next hdown hup =>
      -- both neighbours round to the number, and every choice is one of them
      split at h
      · exact Option.some.inj h ▸ hdown
      split at h
      · exact Option.some.inj h ▸ hup
      cases tie with
      | up => exact Option.some.inj h ▸ hup
      | even =>
          simp only [Option.some.injEq] at h
          split at h
          · exact h ▸ hdown
          · exact h ▸ hup

theorem roundsTo_of_onGrid? {tie : Tie} {r c : Nat} {k : Int} (h : onGrid? tie r k = some c) :
    RoundsTo r (decimalUnits c k) := by
  have hs : 0 < Nat.pow 10 (-k).toNat := Nat.pow_pos (by decide)
  rw [onGrid?] at h
  rw [decimalUnits, ← step_eq]
  exact (roundsTo_iff hs).mp (roundsTo_of_nearestStep? h)

/-- A grid whose step is shorter than the interval around the number has a decimal in it. -/
theorem exists_onGrid? (tie : Tie) {r : Nat} (hr : 0 < r) {k : Int}
    (hstep : (10 : ℚ) ^ k * scale < highEnd r - lowEnd r) : ∃ c, onGrid? tie r k = some c := by
  have hs : 0 < Nat.pow 10 (-k).toNat := Nat.pow_pos (by decide)
  have ht : 0 < Nat.pow 10 k.toNat * scale := Nat.mul_pos (Nat.pow_pos (by decide)) scale_pos
  rw [onGrid?]
  cases h : nearestStep? tie r (Nat.pow 10 (-k).toNat) (Nat.pow 10 k.toNat * scale) with
  | some c => exact ⟨c, rfl⟩
  | none =>
      have hends := nearestStep?_eq_none hr hs ht h
      rw [step_eq] at hends
      linarith

/-! ## Shortest decimals -/

theorem le_pow_leadingZeros {fuel n : Nat} (h : scale ≤ n * 10 ^ fuel) :
    scale ≤ n * 10 ^ leadingZeros fuel n := by
  induction fuel generalizing n with
  | zero => exact h
  | succ fuel ih =>
      rw [leadingZeros]
      split
      · next hle => rwa [Nat.pow_zero, Nat.mul_one]
      · rw [Nat.pow_succ', ← Nat.mul_assoc] at h ⊢
        exact ih h

theorem pow_length_digits_le {n : Nat} (hn : 0 < n) :
    10 ^ ((Decimal.digits n).length - 1) ≤ n := by
  induction n using Nat.strongRecOn with
  | ind n ih =>
      rw [Decimal.digits]
      split
      · exact hn
      · have hdiv := ih (n / 10) (by omega) (by omega)
        have hlength := List.length_pos_of_ne_nil (Decimal.digits_ne_nil (n / 10))
        have hpow : 10 ^ (Decimal.digits (n / 10)).length =
            10 ^ ((Decimal.digits (n / 10)).length - 1) * 10 := by
          rw [← Nat.pow_succ, Nat.succ_eq_add_one, Nat.sub_add_cancel hlength]
        rw [List.length_append, List.length_singleton, Nat.add_sub_cancel, hpow]
        omega

/-- The first decimal digit is not above the number. -/
theorem pow_decimalExponent_le {r : Nat} (hr : 0 < r) :
    (10 : ℚ) ^ decimalExponent r * scale ≤ unitsOfRank r := by
  have hunits : 0 < unitsOfRank r := (Nat.zero_le _).trans_lt (unitsOfRank_strictMono hr)
  rw [decimalExponent]
  split
  · next hle =>
      have hwhole : 0 < unitsOfRank r / scale := Nat.div_pos hle scale_pos
      have hlength := List.length_pos_of_ne_nil (Decimal.digits_ne_nil (unitsOfRank r / scale))
      have hexponent : ((Decimal.digits (unitsOfRank r / scale)).length : Int) - 1 =
          ((Decimal.digits (unitsOfRank r / scale)).length - 1 : Nat) := by omega
      have hpow : 10 ^ ((Decimal.digits (unitsOfRank r / scale)).length - 1) * scale ≤
          unitsOfRank r :=
        (Nat.mul_le_mul_right scale (pow_length_digits_le hwhole)).trans (Nat.div_mul_le_self _ _)
      rw [hexponent, zpow_natCast]
      exact_mod_cast hpow
  · have hzeros : scale ≤ unitsOfRank r * 10 ^ leadingZeros 324 (unitsOfRank r) :=
      le_pow_leadingZeros (scale_le.trans (Nat.le_mul_of_pos_left _ hunits))
    have hpow : (0 : ℚ) < 10 ^ leadingZeros 324 (unitsOfRank r) := by positivity
    rw [zpow_neg, zpow_natCast, inv_mul_le_iff₀ hpow, mul_comm]
    exact_mod_cast hzeros

/-- With seventeen digits the step is shorter than the interval around the number. -/
theorem seventeen_digits {r : Nat} (hr : 0 < r) :
    (10 : ℚ) ^ (decimalExponent r + 1 - (17 : Nat)) * scale < highEnd r - lowEnd r := by
  have hexponent := pow_decimalExponent_le hr
  have hgaps : (2 * unitsOfRank r : ℚ) < 10 ^ 16 * (gap (r - 1) + gap r) := by
    exact_mod_cast unitsOfRank_lt_gaps hr
  have hpow : (10 : ℚ) ^ decimalExponent r =
      10 ^ 16 * 10 ^ (decimalExponent r + 1 - (17 : Nat)) := by
    rw [← zpow_natCast, ← zpow_add₀ (by norm_num)]
    congr 1
    push_cast
    ring
  rw [hpow, mul_assoc] at hexponent
  rw [highEnd_sub_lowEnd hr]
  generalize (10 : ℚ) ^ (decimalExponent r + 1 - (17 : Nat)) * scale = step at hexponent ⊢
  linarith

/-- A grid with a decimal is reached before the bound is used up. -/
theorem firstOnGrids_spec {find? : Int → Option Nat} {last : Int → Nat} {e : Int}
    {P : Nat → Int → Prop} (hfind : ∀ k c, find? k = some c → P c k) {fuel n m : Nat}
    (hn : n ≤ m) (hm : m < n + fuel) (h : ∃ c, find? (e + 1 - m) = some c) :
    P (firstOnGrids find? last e fuel n).1 (firstOnGrids find? last e fuel n).2 := by
  induction fuel generalizing n with
  | zero => omega
  | succ fuel ih =>
      rw [firstOnGrids]
      split
      · next c hc => exact hfind _ _ hc
      · next hnone =>
          refine ih ?_ (by omega)
          rcases Nat.eq_or_lt_of_le hn with rfl | hlt
          · obtain ⟨c, hc⟩ := h
            cases hnone.symm.trans hc
          · exact hlt

/-- **The shortest decimal rounds to its number.** -/
theorem roundsTo_shortest (tie : Tie) {x : Double} (hx : 0 < x.rank) :
    RoundsTo x.rank (decimalUnits (x.shortest tie).1 (x.shortest tie).2) :=
  firstOnGrids_spec (P := fun c k => RoundsTo x.rank (decimalUnits c k))
    (fun _ _ => roundsTo_of_onGrid?) (by decide : 1 ≤ 17) (by decide)
    (exists_onGrid? tie hx (seventeen_digits hx))

end FilterQuery.Double
