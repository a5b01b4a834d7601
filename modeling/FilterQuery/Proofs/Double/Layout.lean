import FilterQuery.Proofs.Double.Rounding

/-!
# Numerals of numbers

What a numeral writes is its magnitude, with the sign beside it (`Numeral.magnitude`). Positional
notation and notation with an exponent write the same magnitude (`Layout.magnitude_spell`), so
that the numeral of a number rounds to the number in every layout (`Layout.roundsTo_numeral`), and
different numbers have different numerals (`Layout.numeral_inj`). The numerals have the form that
JSON asks for (`Numeral.Standard`).
-/

set_option autoImplicit false

namespace FilterQuery

/-! ## Digits -/

namespace Decimal

theorem foldl_eq_add_value (n : Nat) (ds : List Digit) :
    ds.foldl (fun n d => 10 * n + d.val) n = n * 10 ^ ds.length + value ds := by
  induction ds generalizing n with
  | nil => simp [value]
  | cons d ds ih =>
      have hcons : value (d :: ds) = d.val * 10 ^ ds.length + value ds := by
        simp [value, ih d.val]
      rw [List.foldl_cons, ih, hcons, List.length_cons, Nat.pow_succ', ← Nat.mul_assoc,
        Nat.mul_comm n 10, Nat.add_mul, Nat.add_assoc]

/-- Appended digits move the ones before them by as many places. -/
theorem value_append (ds es : List Digit) :
    value (ds ++ es) = value ds * 10 ^ es.length + value es := by
  rw [value, List.foldl_append, foldl_eq_add_value]
  rfl

theorem value_zeros_append (n : Nat) (ds : List Digit) : value (zeros n ++ ds) = value ds := by
  rw [value_append, value_zeros, Nat.zero_mul, Nat.zero_add]

theorem value_append_zeros (ds : List Digit) (n : Nat) :
    value (ds ++ zeros n) = value ds * 10 ^ n := by
  rw [value_append, value_zeros, length_zeros, Nat.add_zero]

theorem head?_digits_ne_zero {n : Nat} (hn : 0 < n) : ∀ d ∈ (digits n).head?, d ≠ Digit.zero := by
  induction n using Nat.strongRecOn with
  | ind n ih =>
      intro d hd
      rw [digits] at hd
      split at hd
      · obtain rfl := Option.some.inj hd
        intro hzero
        have hvalue : n = 0 := congrArg Fin.val hzero
        omega
      · rw [List.head?_append_of_ne_nil _ (digits_ne_nil _)] at hd
        exact ih (n / 10) (by omega) (by omega) d hd

end Decimal

namespace Layout

open Decimal (value zeros)

/-- The digits that are left out are zeros. -/
theorem trim_append_zeros (ds : List Digit) : ∃ n, ds = trim ds ++ zeros n := by
  have hzeros : ds.reverse.takeWhile (· = Digit.zero) =
      zeros (ds.reverse.takeWhile (· = Digit.zero)).length :=
    List.eq_replicate_of_mem fun d hd => by
      simpa using List.all_eq_true.mp (List.all_takeWhile (l := ds.reverse)) d hd
  refine ⟨(ds.reverse.takeWhile (· = Digit.zero)).length, ?_⟩
  calc ds = (ds.reverse.takeWhile (· = Digit.zero) ++
        ds.reverse.dropWhile (· = Digit.zero)).reverse := by
        rw [List.takeWhile_append_dropWhile, List.reverse_reverse]
    _ = trim ds ++ (ds.reverse.takeWhile (· = Digit.zero)).reverse := by
        rw [List.reverse_append, trim]
    _ = trim ds ++ zeros (ds.reverse.takeWhile (· = Digit.zero)).length := by
        rw [hzeros, zeros, List.reverse_replicate, ← zeros, Decimal.length_zeros]

theorem trim_ne_nil {ds : List Digit} (h : 0 < value ds) : trim ds ≠ [] := by
  intro hnil
  obtain ⟨n, hn⟩ := trim_append_zeros ds
  rw [hnil, List.nil_append] at hn
  rw [hn, Decimal.value_zeros] at h
  omega

theorem head?_trim {ds : List Digit} (h : 0 < value ds) : (trim ds).head? = ds.head? := by
  obtain ⟨n, hn⟩ := trim_append_zeros ds
  conv_rhs => rw [hn]
  rw [List.head?_append_of_ne_nil _ (trim_ne_nil h)]

end Layout

/-! ## What numerals write -/

namespace Numeral

/-- The power of ten by which the digits are moved. -/
def power (n : Numeral) : Int :=
  match n.exponent with
  | some e => e.value
  | none => 0

/-- The number that a numeral writes, without its sign. -/
def magnitude (n : Numeral) : ℚ :=
  Decimal.value (n.whole ++ n.fraction) * 10 ^ (n.power - n.fraction.length)

/-- The form that JSON asks for: a leading zero stands alone, and an exponent has digits. -/
structure Standard (n : Numeral) : Prop where
  whole : ∃ d ds, n.whole = d :: ds ∧ (d = Digit.zero → ds = [])
  exponent : ∀ e ∈ n.exponent, e.digits ≠ []

theorem standard_ofInt (i : Int) : (ofInt i).Standard where
  whole := by
    obtain ⟨d, ds, hds⟩ := List.exists_cons_of_ne_nil (Decimal.digits_ne_nil i.natAbs)
    refine ⟨d, ds, hds, fun hd => ?_⟩
    by_cases hi : 0 < i.natAbs
    · exact absurd hd (Decimal.head?_digits_ne_zero hi d (by rw [hds]; rfl))
    · have hi : i.natAbs = 0 := by omega
      rw [hi, Decimal.digits] at hds
      exact (List.cons.inj hds).2.symm
  exponent := nofun

end Numeral

namespace Layout

open Decimal (value zeros)

variable (l : Layout) (negative : Bool) {ds : List Digit}

/-- Zeros stand between the point and the digits of a number below one. -/
theorem magnitude_below_one {e : Int} (he : e < 0) :
    Numeral.magnitude ⟨negative, [Digit.zero], zeros (-e - 1).toNat ++ ds, none⟩ =
      value ds * 10 ^ (e + 1 - ds.length) := by
  have hvalue : value ([Digit.zero] ++ (zeros (-e - 1).toNat ++ ds)) = value ds := by
    show value (zeros 1 ++ (zeros (-e - 1).toNat ++ ds)) = _
    rw [Decimal.value_zeros_append, Decimal.value_zeros_append]
  simp only [Numeral.magnitude, Numeral.power, hvalue, List.length_append, Decimal.length_zeros]
  congr 2
  push_cast
  omega

/-- Zeros fill the places between few digits and the point. -/
theorem magnitude_whole {n : Nat} (hn : ds.length ≤ n) :
    Numeral.magnitude ⟨negative, ds ++ zeros (n - ds.length), [Digit.zero], none⟩ =
      value ds * 10 ^ ((n : Int) - ds.length) := by
  have hvalue : value (ds ++ zeros (n - ds.length) ++ [Digit.zero]) =
      value ds * 10 ^ (n - ds.length) * 10 := by
    rw [Decimal.value_append, Decimal.value_append_zeros]
    rfl
  have hexponent : (n : Int) - ds.length = (n - ds.length : Nat) := by omega
  simp only [Numeral.magnitude, Numeral.power, hvalue, hexponent, zpow_natCast,
    List.length_singleton]
  push_cast
  field_simp

/-- The point stands behind the first `n` digits, and an exponent may follow. -/
theorem magnitude_cut {n : Nat} (hn : n ≤ ds.length) (exponent : Option Exponent) :
    Numeral.magnitude ⟨negative, ds.take n, ds.drop n, exponent⟩ =
      value ds * 10 ^ ((exponent.elim 0 Exponent.value) + n - ds.length) := by
  have hpower : Numeral.power ⟨negative, ds.take n, ds.drop n, exponent⟩ =
      exponent.elim 0 Exponent.value := by
    cases exponent <;> rfl
  simp only [Numeral.magnitude, hpower, List.take_append_drop, List.length_drop]
  congr 2
  omega

theorem value_exponent (e : Int) :
    Exponent.value ⟨false, if e < 0 then some true else if l.plus then some false else none,
      Decimal.digits e.natAbs⟩ = e := by
  rw [Exponent.value, Decimal.value_digits]
  by_cases hneg : e < 0
  · rw [if_pos hneg, if_pos rfl]
    omega
  · have hsign : (if l.plus then some false else none) ≠ some true := by
      split <;> nofun
    rw [if_neg hneg, if_neg hsign]
    omega

/-- **Where the point stands and whether there is an exponent does not change the number.** -/
theorem magnitude_spell (hds : ds ≠ []) (e : Int) :
    (l.spell negative ds e).magnitude = value ds * 10 ^ (e + 1 - ds.length) := by
  have hlength := List.length_pos_of_ne_nil hds
  rw [spell]
  split
  · split
    · next hneg => exact magnitude_below_one negative hneg
    · next hpos =>
        have hplaces : ((e.toNat + 1 : Nat) : Int) = e + 1 := by omega
        by_cases hshort : ds.length ≤ e.toNat + 1
        · have hwhole := magnitude_whole negative hshort
          rw [hplaces] at hwhole
          simp only [if_pos hshort, List.take_of_length_le hshort]
          exact hwhole
        · have hcut := magnitude_cut negative (Nat.le_of_not_le hshort) none
          have hnozeros : e.toNat + 1 - ds.length = 0 := by omega
          rw [hplaces, Option.elim_none, Int.zero_add] at hcut
          simp only [if_neg hshort, hnozeros, zeros, List.replicate_zero, List.append_nil]
          exact hcut
  · rw [magnitude_cut negative hlength, Option.elim_some, value_exponent, Nat.cast_one]

theorem standard_spell (hds : ds ≠ []) (hhead : ∀ d ∈ ds.head?, d ≠ Digit.zero) (e : Int) :
    (l.spell negative ds e).Standard := by
  obtain ⟨d, ds, rfl⟩ := List.exists_cons_of_ne_nil hds
  have hd : d ≠ Digit.zero := hhead d rfl
  rw [spell]
  split
  · split
    · exact ⟨⟨Digit.zero, [], rfl, fun _ => rfl⟩, nofun⟩
    · exact ⟨⟨d, _, rfl, fun hzero => absurd hzero hd⟩, nofun⟩
  · refine ⟨⟨d, [], rfl, fun _ => rfl⟩, ?_⟩
    rintro _ ⟨⟩
    exact Decimal.digits_ne_nil _

end Layout

/-! ## Numerals of numbers -/

namespace Double

attribute [local irreducible] scale

theorem not_roundsTo_zero {r : Nat} (hr : 0 < r) : ¬ RoundsTo r 0 := by
  intro h
  have hlow := (h.bounds hr).1
  have hbelow : (0 : ℚ) ≤ unitsOfRank (r - 1) := Nat.cast_nonneg _
  have hunits : 0 < unitsOfRank r := (Nat.zero_le _).trans_lt (unitsOfRank_strictMono hr)
  have hunits : (0 : ℚ) < unitsOfRank r := by exact_mod_cast hunits
  rw [lowEnd] at hlow
  linarith

theorem shortest_pos (tie : Tie) {x : Double} (hx : 0 < x.rank) : 0 < (x.shortest tie).1 := by
  rw [Nat.pos_iff_ne_zero]
  intro hzero
  have hrounds := roundsTo_shortest tie hx
  rw [hzero, decimalUnits, Nat.cast_zero, zero_mul] at hrounds
  exact not_roundsTo_zero hx hrounds

end Double

namespace Layout

open Double

attribute [local irreducible] scale

variable (l : Layout) {x y : Double}

theorem numeral_of_zero (hx : x.rank = 0) :
    l.numeral x = ⟨x.negative, [Digit.zero], [Digit.zero], none⟩ := by
  simp [numeral, isZero, hx]

theorem numeral_of_pos (hx : 0 < x.rank) :
    l.numeral x = l.spell x.negative (trim (Decimal.digits (x.shortest l.tie).1))
      ((x.shortest l.tie).2 + (Decimal.digits (x.shortest l.tie).1).length - 1) := by
  have hzero : ¬ x.isZero = true := by simpa [isZero] using hx.ne'
  unfold numeral
  refine (if_neg hzero).trans ?_
  -- the search itself must not be computed
  generalize x.shortest l.tie = shortest
  obtain ⟨c, k⟩ := shortest
  rfl

theorem numeral_negative (x : Double) : (l.numeral x).negative = x.negative := by
  rcases Nat.eq_zero_or_pos x.rank with hx | hx
  · rw [numeral_of_zero l hx]
  · rw [numeral_of_pos l hx, spell]
    split_ifs <;> rfl

theorem magnitude_numeral_of_zero (hx : x.rank = 0) : (l.numeral x).magnitude = 0 := by
  have hvalue : Decimal.value ([Digit.zero] ++ [Digit.zero]) = 0 := rfl
  rw [numeral_of_zero l hx, Numeral.magnitude, hvalue, Nat.cast_zero, zero_mul]

/-- **The numeral of a number rounds to the number.** -/
theorem roundsTo_numeral (hx : 0 < x.rank) :
    RoundsTo x.rank ((l.numeral x).magnitude * scale) := by
  have hrounds := roundsTo_shortest l.tie hx
  have hpos : 0 < Decimal.value (Decimal.digits (x.shortest l.tie).1) := by
    rw [Decimal.value_digits]
    exact shortest_pos l.tie hx
  obtain ⟨n, hn⟩ := trim_append_zeros (Decimal.digits (x.shortest l.tie).1)
  have hvalue : (x.shortest l.tie).1 =
      Decimal.value (trim (Decimal.digits (x.shortest l.tie).1)) * 10 ^ n := by
    conv_lhs => rw [← Decimal.value_digits (x.shortest l.tie).1, hn, Decimal.value_append_zeros]
  have hlength : (Decimal.digits (x.shortest l.tie).1).length =
      (trim (Decimal.digits (x.shortest l.tie).1)).length + n := by
    conv_lhs => rw [hn]
    simp
  rw [numeral_of_pos l hx, magnitude_spell l _ (trim_ne_nil hpos)]
  generalize trim (Decimal.digits (x.shortest l.tie).1) = ds at hvalue hlength
  have hexponent : (x.shortest l.tie).2 + (Decimal.digits (x.shortest l.tie).1).length - 1 + 1 -
      ds.length = n + (x.shortest l.tie).2 := by
    rw [hlength]
    push_cast
    ring
  have hmagnitude : (Decimal.value ds * 10 ^ (n + (x.shortest l.tie).2) * scale : ℚ) =
      decimalUnits (x.shortest l.tie).1 (x.shortest l.tie).2 := by
    rw [zpow_add₀ (by norm_num), zpow_natCast, decimalUnits]
    conv_rhs => rw [hvalue]
    push_cast
    ring
  rw [hexponent, hmagnitude]
  exact hrounds

/-- **Different numbers have different numerals.** -/
theorem numeral_inj (h : l.numeral x = l.numeral y) : x = y := by
  have hnegative : x.negative = y.negative := by
    rw [← numeral_negative l x, h, numeral_negative]
  have hrank : x.rank = y.rank := by
    rcases Nat.eq_zero_or_pos x.rank with hx | hx <;> rcases Nat.eq_zero_or_pos y.rank with hy | hy
    · rw [hx, hy]
    · have hrounds := roundsTo_numeral l hy
      rw [← h, magnitude_numeral_of_zero l hx, zero_mul] at hrounds
      exact absurd hrounds (not_roundsTo_zero hy)
    · have hrounds := roundsTo_numeral l hx
      rw [h, magnitude_numeral_of_zero l hy, zero_mul] at hrounds
      exact absurd hrounds (not_roundsTo_zero hx)
    · exact (roundsTo_numeral l hx).unique hx hy (h ▸ roundsTo_numeral l hy)
  cases x
  cases y
  obtain rfl : _ = _ := hnegative
  obtain rfl : _ = _ := hrank
  rfl

theorem standard_numeral (x : Double) : (l.numeral x).Standard := by
  rcases Nat.eq_zero_or_pos x.rank with hx | hx
  · rw [numeral_of_zero l hx]
    exact ⟨⟨Digit.zero, [], rfl, fun _ => rfl⟩, nofun⟩
  · have hpos : 0 < Decimal.value (Decimal.digits (x.shortest l.tie).1) := by
      rw [Decimal.value_digits]
      exact shortest_pos l.tie hx
    rw [numeral_of_pos l hx]
    refine standard_spell l _ (trim_ne_nil hpos) ?_ _
    rw [head?_trim hpos]
    exact Decimal.head?_digits_ne_zero (shortest_pos l.tie hx)

end Layout

end FilterQuery
