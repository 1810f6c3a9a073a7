import Mathlib
import Statechart.Shortest
import Statechart.Proofs.Nearest

/-! The shortest decimal of a number is one that rounds back to it, and stays within one step of its
own last digit. -/

namespace Statechart

def Decimal.value (d : Decimal) : ℚ := d.coefficient * 10 ^ d.exponent

namespace Single

variable {x : Single}

theorem magnitude_bounds (h : x.isFinite = true) :
    x.magnitude.coefficient < 2 ^ 24 ∧ -149 ≤ x.magnitude.exponent ∧
      x.magnitude.exponent ≤ 104 ∧
      (2 ^ 23 ≤ x.magnitude.coefficient ∨ x.magnitude.exponent = -149) := by
  have hscale : x.scale ≠ 255 := by simpa [isFinite] using h
  have hlt : x.scale < 2 ^ 8 := Nat.mod_lt _ (by decide)
  have hfraction : x.fraction < 2 ^ 23 := Nat.mod_lt _ (by decide)
  by_cases hzero : x.scale = 0
  · simp only [magnitude, if_pos hzero]
    exact ⟨by omega, by decide, by decide, .inr trivial⟩
  · simp only [magnitude, if_neg hzero]
    omega

theorem ofMagnitude_magnitude (h : x.isFinite = true) :
    ofMagnitude x.isNegative (some x.magnitude) = x := by
  have hscale : x.scale ≠ 255 := by simpa [isFinite] using h
  have hbits := x.bits.toNat_lt
  have hsign : signBit x.isNegative = x.bits.toNat / 2 ^ 31 * 2 ^ 31 := by
    by_cases hneg : 0x80000000 ≤ x.bits.toNat
    · simp only [isNegative, hneg, decide_true, signBit, if_true]
      omega
    · simp only [isNegative, hneg, decide_false, signBit, Bool.false_eq_true, if_false]
      omega
  have hparts : signBit x.isNegative + x.scale * 2 ^ 23 + x.fraction = x.bits.toNat := by
    rw [hsign, scale, fraction]
    omega
  have hfraction : x.fraction < 2 ^ 23 := Nat.mod_lt _ (by decide)
  by_cases hzero : x.scale = 0
  · have hvalue : signBit x.isNegative + x.fraction = x.bits.toNat := by
      rw [hzero] at hparts
      omega
    simp only [magnitude, if_pos hzero, ofMagnitude, if_pos hfraction, hvalue, UInt32.ofNat_toNat]
  · have hnormal : ¬2 ^ 23 + x.fraction < 2 ^ 23 := by omega
    have hexponent : ((x.scale : ℤ) - 150 + 150).toNat = x.scale := by omega
    have hrest : 2 ^ 23 + x.fraction - 2 ^ 23 = x.fraction := by omega
    simp only [magnitude, if_neg hzero, ofMagnitude, if_neg hnormal, hexponent, hrest, hparts,
      UInt32.ofNat_toNat]

/-- The number `q` quarters of a unit. -/
def mark (x : Single) (q : Nat) : ℚ := q * 2 ^ (x.magnitude.exponent - 2)

theorem value_eq_mark : x.magnitude.value = x.mark (4 * x.magnitude.coefficient) := by
  rw [Binary.value, mark, zpow_sub₀ (by norm_num)]
  push_cast
  ring

theorem pow_toNat_eq {base : ℚ} (hb : base ≠ 0) (k : ℤ) :
    base ^ k.toNat = base ^ k * base ^ (-k).toNat := by
  have hsplit : (k.toNat : ℤ) = k + ((-k).toNat : ℤ) := by omega
  rw [← zpow_natCast, hsplit, zpow_add₀ hb, zpow_natCast]

theorem comparedTo_eq (x : Single) (d : Decimal) (q : Nat) :
    x.comparedTo d q = compare d.value (x.mark q) := by
  have hscale : (0 : ℚ) < 10 ^ (-d.exponent).toNat * 2 ^ (-(x.magnitude.exponent - 2)).toNat := by
    positivity
  have hleft : ((d.coefficient * 10 ^ d.exponent.toNat *
      2 ^ (-(x.magnitude.exponent - 2)).toNat : ℕ) : ℚ) = d.value *
        (10 ^ (-d.exponent).toNat * 2 ^ (-(x.magnitude.exponent - 2)).toNat) := by
    push_cast
    rw [pow_toNat_eq (by norm_num) d.exponent, Decimal.value]
    ring
  have hright : ((q * 2 ^ (x.magnitude.exponent - 2).toNat * 10 ^ (-d.exponent).toNat : ℕ) : ℚ) =
      x.mark q * (10 ^ (-d.exponent).toNat * 2 ^ (-(x.magnitude.exponent - 2)).toNat) := by
    push_cast
    rw [pow_toNat_eq (by norm_num) (x.magnitude.exponent - 2), mark]
    ring
  rw [comparedTo]
  rcases lt_trichotomy d.value (x.mark q) with h | h | h
  · have hcast := mul_lt_mul_of_pos_right h hscale
    rw [← hleft, ← hright, Nat.cast_lt] at hcast
    rw [compare_lt_iff_lt.mpr h]
    exact Nat.compare_eq_lt.mpr hcast
  · rw [← h, ← hleft, Nat.cast_inj] at hright
    rw [compare_eq_iff_eq.mpr h]
    exact Nat.compare_eq_eq.mpr hright.symm
  · have hcast := mul_lt_mul_of_pos_right h hscale
    rw [← hleft, ← hright, Nat.cast_lt] at hcast
    rw [compare_gt_iff_gt.mpr h]
    exact Nat.compare_eq_gt.mpr hcast

theorem comparedTo_eq_lt {d : Decimal} {q : Nat} :
    x.comparedTo d q = .lt ↔ d.value < x.mark q := by
  rw [comparedTo_eq, compare_lt_iff_lt]

theorem comparedTo_eq_eq {d : Decimal} {q : Nat} :
    x.comparedTo d q = .eq ↔ d.value = x.mark q := by
  rw [comparedTo_eq, compare_eq_iff_eq]

theorem comparedTo_eq_gt {d : Decimal} {q : Nat} :
    x.comparedTo d q = .gt ↔ x.mark q < d.value := by
  rw [comparedTo_eq, compare_gt_iff_gt]

/-- What a number takes to itself in rounding lies between the midpoints to its neighbours. They
belong to the number with the even coefficient. -/
structure Attracts (x : Single) (v : ℚ) : Prop where
  low : x.mark x.quarters.1 ≤ v
  high : v ≤ x.mark x.quarters.2
  inside : x.magnitude.coefficient % 2 ≠ 0 → x.mark x.quarters.1 < v ∧ v < x.mark x.quarters.2

theorem admits_iff {d : Decimal} : x.admits d = true ↔ x.Attracts d.value := by
  simp only [admits, Bool.and_eq_true, Bool.or_eq_true, beq_iff_eq, decide_eq_true_eq,
    comparedTo_eq_lt, comparedTo_eq_eq, comparedTo_eq_gt]
  by_cases hc : x.magnitude.coefficient % 2 = 0
  · simp only [hc, true_and]
    constructor
    · rintro ⟨h, h'⟩
      exact ⟨h.elim le_of_lt fun h => h.ge, h'.elim le_of_lt le_of_eq, fun hodd => absurd hc hodd⟩
    · rintro ⟨h, h', -⟩
      exact ⟨h.lt_or_eq.imp id Eq.symm, h'.lt_or_eq⟩
  · simp only [hc, false_and, or_false]
    constructor
    · rintro ⟨h, h'⟩
      exact ⟨h.le, h'.le, fun _ => ⟨h, h'⟩⟩
    · rintro ⟨-, -, h⟩
      exact h hc

/-- Being written, a number is neither zero nor infinite. -/
structure Proper (x : Single) : Prop where
  isFinite : x.isFinite = true
  coefficient_ne_zero : x.magnitude.coefficient ≠ 0

namespace Proper

theorem value_bounds (h : x.Proper) :
    (2 : ℚ) ^ (-149 : ℤ) ≤ x.magnitude.value ∧ x.magnitude.value < 2 ^ (128 : ℤ) := by
  obtain ⟨hlt, hlow, hhigh, -⟩ := magnitude_bounds h.isFinite
  have hc : (1 : ℚ) ≤ x.magnitude.coefficient := by
    exact_mod_cast Nat.one_le_iff_ne_zero.mpr h.coefficient_ne_zero
  have hltq : (x.magnitude.coefficient : ℚ) < 2 ^ (24 : ℤ) := by
    rw [show (24 : ℤ) = ((24 : ℕ) : ℤ) from rfl, zpow_natCast]
    exact_mod_cast hlt
  have hmono : (2 : ℚ) ^ (-149 : ℤ) ≤ 2 ^ x.magnitude.exponent :=
    zpow_le_zpow_right₀ (by norm_num) hlow
  have hmono' : (2 : ℚ) ^ x.magnitude.exponent ≤ 2 ^ (104 : ℤ) :=
    zpow_le_zpow_right₀ (by norm_num) hhigh
  have hpos : (0 : ℚ) < 2 ^ x.magnitude.exponent := by positivity
  rw [Binary.value]
  constructor
  · nlinarith
  · calc (x.magnitude.coefficient : ℚ) * 2 ^ x.magnitude.exponent
        < 2 ^ (24 : ℤ) * 2 ^ x.magnitude.exponent := by gcongr
      _ ≤ 2 ^ (24 : ℤ) * 2 ^ (104 : ℤ) := by gcongr
      _ = 2 ^ (128 : ℤ) := by norm_num

theorem value_pos (h : x.Proper) : 0 < x.magnitude.value :=
  lt_of_lt_of_le (by positivity) h.value_bounds.1

theorem leading_bounds (h : x.Proper) :
    (10 : ℚ) ^ x.leading ≤ x.magnitude.value ∧ x.magnitude.value < 10 ^ (x.leading + 1) ∧
      -45 ≤ x.leading ∧ x.leading ≤ 38 := by
  obtain ⟨hlow, hhigh⟩ := h.value_bounds
  have htest (e : ℤ) : (x.comparedTo ⟨1, e⟩ (4 * x.magnitude.coefficient) != .gt) = true ↔
      (10 : ℚ) ^ e ≤ x.magnitude.value := by
    rw [bne_iff_ne, ne_eq, comparedTo_eq_gt, not_lt, ← value_eq_mark, Decimal.value]
    simp
  have hfound : (((List.range 85).find? fun i : Nat =>
      x.comparedTo ⟨1, 38 - i⟩ (4 * x.magnitude.coefficient) != .gt)).isSome := by
    refine List.find?_isSome.mpr ⟨83, by simp, (htest _).mpr (le_trans ?_ hlow)⟩
    norm_num
  obtain ⟨i, hi⟩ := Option.isSome_iff_exists.mp hfound
  have hleading : x.leading = 38 - i := by
    simp only [leading, List.find?_map, Function.comp_def, hi, Option.map_some, Option.getD_some]
  obtain ⟨hp, hmem, hfirst⟩ := List.find?_range_eq_some.mp hi
  rw [htest] at hp
  rw [List.mem_range] at hmem
  have hceil : x.magnitude.value < 10 ^ (x.leading + 1) := by
    rcases Nat.eq_zero_or_pos i with rfl | hpos
    · rw [hleading]
      refine hhigh.trans_le ?_
      norm_num
    · have hprevious := hfirst (i - 1) (by omega)
      have hexponent : (38 : ℤ) - (i - 1 : ℕ) = x.leading + 1 := by omega
      rw [Bool.not_eq_true', ← Bool.not_eq_true, htest, not_le, hexponent] at hprevious
      exact hprevious
  have hfloor : (10 : ℚ) ^ (-45 : ℤ) < 10 ^ (x.leading + 1) := by
    refine lt_of_le_of_lt ?_ (hlow.trans_lt hceil)
    norm_num
  have hlast : (-45 : ℤ) < x.leading + 1 := (zpow_lt_zpow_iff_right₀ (by norm_num)).mp hfloor
  exact ⟨hleading ▸ hp, hceil, by omega, by omega⟩

theorem gap_le (h : x.Proper) :
    x.mark x.quarters.1 ≤ x.magnitude.value - x.magnitude.value / 2 ^ 25 ∧
      x.magnitude.value + x.magnitude.value / 2 ^ 25 ≤ x.mark x.quarters.2 := by
  obtain ⟨hlt, hlow, hhigh, hnormal⟩ := magnitude_bounds h.isFinite
  have hc : (1 : ℚ) ≤ x.magnitude.coefficient := by
    exact_mod_cast Nat.one_le_iff_ne_zero.mpr h.coefficient_ne_zero
  have hltq : (x.magnitude.coefficient : ℚ) + 1 ≤ 2 ^ 24 := by exact_mod_cast hlt
  have hpos : (0 : ℚ) < 2 ^ (x.magnitude.exponent - 2) := by positivity
  rw [value_eq_mark, mark, mark, mark]
  constructor
  · have hgap : (x.magnitude.coefficient : ℚ) * 4 / 2 ^ 25 ≤
        (if x.magnitude.coefficient = 2 ^ 23 ∧ -149 < x.magnitude.exponent then 1
          else 2 : Nat) := by
      split
      · rename_i hpower
        rw [hpower.1]
        norm_num
      · push_cast
        linarith
    have hle : (if x.magnitude.coefficient = 2 ^ 23 ∧ -149 < x.magnitude.exponent then 1 else 2) ≤
        4 * x.magnitude.coefficient := by
      have hne := h.coefficient_ne_zero
      split <;> omega
    simp only [quarters]
    rw [Nat.cast_sub hle]
    push_cast at hgap ⊢
    nlinarith
  · simp only [quarters]
    push_cast
    nlinarith

theorem div_bounds {a b : Nat} {v u unit : ℚ} (hunit : 0 < unit) (hu : 0 < u)
    (ha : (a : ℚ) = v * unit) (hb : (b : ℚ) = u * unit) :
    (a / b : Nat) * u ≤ v ∧ v < (a / b : Nat) * u + u := by
  have hpos : 0 < b := by
    have hbq : (0 : ℚ) < b := by
      rw [hb]
      positivity
    exact_mod_cast hbq
  have hlow : ((a / b : Nat) : ℚ) * b ≤ a := by exact_mod_cast Nat.div_mul_le_self a b
  have hhigh : (a : ℚ) < (a / b : Nat) * b + b := by exact_mod_cast Nat.lt_div_mul_add hpos
  rw [ha, hb] at hlow hhigh
  constructor
  · refine le_of_mul_le_mul_right ?_ hunit
    linarith
  · refine lt_of_mul_lt_mul_right ?_ hunit.le
    linarith

theorem below_bounds (x : Single) (n : Nat) :
    (x.below n).value ≤ x.magnitude.value ∧
      x.magnitude.value < (x.below n).value + 10 ^ (x.below n).exponent := by
  have hunit :
      (0 : ℚ) < 2 ^ (-x.magnitude.exponent).toNat * 10 ^ (-(x.below n).exponent).toNat := by
    positivity
  refine div_bounds hunit (by positivity) ?_ ?_
  · push_cast
    rw [pow_toNat_eq (by norm_num) x.magnitude.exponent, Binary.value]
    simp only [below]
    ring
  · push_cast
    simp only [below]
    rw [pow_toNat_eq (by norm_num) (x.leading + 1 - n)]
    ring

theorem low_pos (h : x.Proper) : 0 < x.mark x.quarters.1 := by
  have hne := h.coefficient_ne_zero
  have hquarters : 0 < x.quarters.1 := by
    simp only [quarters]
    split <;> omega
  rw [mark]
  positivity

theorem coefficient_below_lt (h : x.Proper) (n : Nat) : (x.below n).coefficient < 10 ^ n := by
  have hlow := (below_bounds x n).1
  have hhigh := h.leading_bounds.2.1
  have hpos : (0 : ℚ) < 10 ^ (x.below n).exponent := by positivity
  have hexponent : x.leading + 1 = n + (x.below n).exponent := by
    simp only [below]
    omega
  rw [hexponent, zpow_add₀ (by norm_num), zpow_natCast] at hhigh
  have hlt : ((x.below n).coefficient : ℚ) < 10 ^ n :=
    lt_of_mul_lt_mul_right (hlow.trans_lt hhigh) hpos.le
  exact_mod_cast hlt

/-- Nine digits always suffice. -/
theorem admits_below (h : x.Proper) : x.admits (x.below 9) = true := by
  obtain ⟨hlow, hhigh⟩ := below_bounds x 9
  obtain ⟨hgaplow, hgaphigh⟩ := h.gap_le
  have hvalue := h.value_pos
  have hstep : (10 : ℚ) ^ (x.below 9).exponent ≤ x.magnitude.value / 10 ^ 8 := by
    have hleading := h.leading_bounds.1
    have hexponent : x.leading = (x.below 9).exponent + 8 := by
      simp only [below]
      omega
    rw [hexponent, zpow_add₀ (by norm_num)] at hleading
    rw [le_div_iff₀ (by norm_num)]
    exact hleading
  have habove : x.mark x.quarters.1 < (x.below 9).value := by
    norm_num at hstep hgaplow
    linarith
  have hbelow : (x.below 9).value < x.mark x.quarters.2 := by
    norm_num at hgaphigh
    linarith
  exact admits_iff.mpr ⟨habove.le, hbelow.le, fun _ => ⟨habove, hbelow⟩⟩

end Proper

/-- A decimal that rounds back to a number, in steps that reach from the number to it. -/
structure Spelling (x : Single) (d : Decimal) : Prop where
  admits : x.admits d = true
  near : |d.value - x.magnitude.value| ≤ 10 ^ d.exponent
  coefficient_le : d.coefficient ≤ 10 ^ 9
  exponent_ge : -53 ≤ d.exponent
  exponent_le : d.exponent ≤ 38

namespace Spelling

theorem of_grid (h : x.Proper) {d : Decimal} (hd : x.admits d = true) {n : Nat} (hn : 1 ≤ n)
    (hle : n ≤ 9) (hexponent : d.exponent = (x.below n).exponent)
    (hc : d.coefficient = (x.below n).coefficient ∨ d.coefficient = (x.below n).coefficient + 1) :
    x.Spelling d := by
  obtain ⟨hlow, hhigh⟩ := Proper.below_bounds x n
  obtain ⟨-, -, hfirst, hlast⟩ := h.leading_bounds
  have hlt := h.coefficient_below_lt n
  have hpow : 10 ^ n ≤ 10 ^ 9 := Nat.pow_le_pow_right (by decide) hle
  have hpos : (0 : ℚ) < 10 ^ d.exponent := by positivity
  have hexp : (x.below n).exponent = x.leading + 1 - n := rfl
  refine ⟨hd, ?_, by omega, by omega, by omega⟩
  rw [← hexponent] at hhigh
  rw [abs_le]
  rcases hc with hc | hc
  · have hvalue : d.value = (x.below n).value := by
      rw [Decimal.value, hc, hexponent, Decimal.value]
    constructor <;> linarith
  · have hvalue : d.value = (x.below n).value + 10 ^ d.exponent := by
      rw [Decimal.value, hc, Decimal.value, hexponent]
      push_cast
      ring
    constructor <;> linarith

theorem of_decimalOf? (h : x.Proper) {tie : Tie} {n : Nat} {d : Decimal} (hn : 1 ≤ n)
    (hle : n ≤ 9) (hd : x.decimalOf? tie n = some d) : x.Spelling d := by
  have hcases : d = x.below n ∧ x.admits (x.below n) = true ∨
      d = ⟨(x.below n).coefficient + 1, (x.below n).exponent⟩ ∧
        x.admits ⟨(x.below n).coefficient + 1, (x.below n).exponent⟩ = true := by
    delta decimalOf? at hd
    dsimp only at hd
    generalize x.below n = b at hd ⊢
    cases hbelow : x.admits b <;>
      cases habove : x.admits ⟨b.coefficient + 1, b.exponent⟩ <;>
      simp only [hbelow, habove] at hd
    · cases hd
    · exact .inr ⟨(Option.some.inj hd).symm, rfl⟩
    · exact .inl ⟨(Option.some.inj hd).symm, rfl⟩
    · split at hd
      · exact .inr ⟨(Option.some.inj hd).symm, rfl⟩
      · exact .inl ⟨(Option.some.inj hd).symm, rfl⟩
  rcases hcases with ⟨rfl, hadmits⟩ | ⟨rfl, hadmits⟩
  · exact of_grid h hadmits hn hle rfl (.inl rfl)
  · exact of_grid h hadmits hn hle rfl (.inr rfl)

theorem shortest (h : x.Proper) (tie : Tie) : x.Spelling (x.shortest tie) := by
  rw [Single.shortest]
  cases hfound : (List.range 9).findSome? fun n => x.decimalOf? tie (n + 1) with
  | none =>
    rw [Option.getD_none]
    exact of_grid h h.admits_below (n := 9) (by decide) (by decide) rfl (.inl rfl)
  | some d =>
    rw [Option.getD_some]
    obtain ⟨n, hmem, hd⟩ := List.exists_of_findSome?_eq_some hfound
    have hn := List.mem_range.mp hmem
    exact of_decimalOf? h (by omega) (by omega) hd

theorem value_pos (h : x.Proper) {d : Decimal} (hd : x.Spelling d) : 0 < d.value :=
  h.low_pos.trans_le (admits_iff.mp hd.admits).low

theorem coefficient_pos (h : x.Proper) {d : Decimal} (hd : x.Spelling d) : 0 < d.coefficient := by
  have hvalue := hd.value_pos h
  rcases Nat.eq_zero_or_pos d.coefficient with hzero | hpos
  · rw [Decimal.value, hzero] at hvalue
    simp at hvalue
  · exact hpos

end Spelling

end Single

end Statechart
