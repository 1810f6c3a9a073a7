import Mathlib
import Statechart.Proofs.Numerals
import Statechart.Proofs.Separation

/-! Written and read again, a number of single precision comes back. Reading goes through double
precision and rounds more than once; that does no harm because a short decimal is never as near to a
midpoint as those roundings can be off. -/

namespace Statechart

namespace Single

variable {x : Single} {d : Decimal} {v : ℚ} {s : Nat} {e : Int} {b : Binary}

theorem round_attracted (h : x.Proper) {num den : Nat} (hd : 0 < den)
    (hv : x.Attracts (num / den)) : BinaryFormat.single.round num den = some x.magnitude := by
  obtain ⟨hlt, hlow, hhigh, hnormal⟩ := magnitude_bounds h.isFinite
  have hpos := Nat.pos_of_ne_zero h.coefficient_ne_zero
  exact BinaryFormat.round_eq (by decide) hd hpos hlt hlow hhigh hnormal rfl hv.low hv.high
    hv.inside

theorem ofBinary_attracted (h : x.Proper) (hv : x.Attracts b.value) :
    ofBinary x.isNegative b = x := by
  rw [← b.ratio_eq] at hv
  rw [ofBinary, BinaryFormat.roundBinary, round_attracted h b.ratio_snd_pos hv,
    ofMagnitude_magnitude h.isFinite]

/-- A midpoint between a number and a neighbour takes one bit more than the number. -/
structure Midpoint (x : Single) (v : ℚ) : Prop where
  eq_mul : ∃ (c : Nat) (j : Int), 0 < c ∧ c < 2 ^ 25 ∧ -151 ≤ j ∧ j ≤ 104 ∧ v = c * 2 ^ j
  away : x.magnitude.value / 2 ^ 25 ≤ |v - x.magnitude.value|

theorem midpoint_low (h : x.Proper) : x.Midpoint (x.mark x.quarters.1) := by
  obtain ⟨hlt, hlow, hhigh, -⟩ := magnitude_bounds h.isFinite
  have hpos := Nat.pos_of_ne_zero h.coefficient_ne_zero
  have hgap := h.gap_le.1
  refine ⟨?_, ?_⟩
  · by_cases hpower : x.magnitude.coefficient = 2 ^ 23 ∧ -149 < x.magnitude.exponent
    · refine ⟨2 ^ 25 - 1, x.magnitude.exponent - 2, by decide, by decide, by omega, by omega, ?_⟩
      have hquarters : x.quarters.1 = 2 ^ 25 - 1 := by
        simp only [quarters, if_pos hpower]
        omega
      rw [mark, hquarters]
    · refine ⟨2 * x.magnitude.coefficient - 1, x.magnitude.exponent - 1, by omega, by omega,
        by omega, by omega, ?_⟩
      have hquarters : 4 * x.magnitude.coefficient - 2 = (2 * x.magnitude.coefficient - 1) * 2 := by
        omega
      have hexponent : x.magnitude.exponent - 1 = x.magnitude.exponent - 2 + 1 := by omega
      rw [mark, quarters, if_neg hpower, hquarters, hexponent, zpow_add_one₀ (by norm_num)]
      push_cast
      ring
  · rw [abs_sub_comm]
    refine le_trans ?_ (le_abs_self _)
    linarith

theorem midpoint_high (h : x.Proper) : x.Midpoint (x.mark x.quarters.2) := by
  obtain ⟨hlt, hlow, hhigh, -⟩ := magnitude_bounds h.isFinite
  have hgap := h.gap_le.2
  refine ⟨⟨2 * x.magnitude.coefficient + 1, x.magnitude.exponent - 1, by omega, by omega, by omega,
    by omega, ?_⟩, ?_⟩
  · have hexponent : x.magnitude.exponent - 1 = x.magnitude.exponent - 2 + 1 := by omega
    rw [mark, quarters, hexponent, zpow_add_one₀ (by norm_num)]
    push_cast
    ring
  · refine le_trans ?_ (le_abs_self _)
    linarith

theorem far_of_long (hd : x.Spelling d) (hlong : Separation.longCoefficient ≤ d.coefficient)
    (hv : x.Midpoint v) : d.value * Double.tolerance < |d.value - v| := by
  have hstep : (0 : ℚ) < 10 ^ d.exponent := by positivity
  have hcoefficient : (33554464 : ℚ) ≤ d.coefficient := by exact_mod_cast hlong
  have hcoefficient' : (d.coefficient : ℚ) ≤ 10 ^ 9 := by exact_mod_cast hd.coefficient_le
  have hlow : 33554464 * (10 : ℚ) ^ d.exponent ≤ d.value := by
    rw [Decimal.value]
    gcongr
  have hhigh : d.value ≤ 10 ^ 9 * 10 ^ d.exponent := by
    rw [Decimal.value]
    gcongr
  have htriangle := abs_sub_le v d.value x.magnitude.value
  rw [abs_sub_comm v d.value] at htriangle
  have haway := hv.away
  have hnear := hd.near
  have hvalue := (abs_le.mp hnear).2
  have hproduct : d.value * Double.tolerance ≤ 10 ^ 9 * 10 ^ d.exponent * (1 / 2 ^ 51) := by
    have htolerance : Double.tolerance ≤ 1 / 2 ^ 51 := by
      rw [Double.tolerance]
      norm_num
    have htolerance' : 0 ≤ Double.tolerance := by
      rw [Double.tolerance]
      norm_num
    gcongr
  norm_num at hproduct haway
  linarith

theorem natural_eq {a c : Nat} {k j : Int} (h : (a : ℚ) * 10 ^ k = c * 2 ^ j) :
    a * 10 ^ k.toNat * 2 ^ (-j).toNat = c * 2 ^ j.toNat * 10 ^ (-k).toNat := by
  have hcast : (a : ℚ) * 10 ^ k.toNat * 2 ^ (-j).toNat = c * 2 ^ j.toNat * 10 ^ (-k).toNat := by
    rw [pow_toNat_eq (by norm_num) k, pow_toNat_eq (by norm_num) j]
    calc (a : ℚ) * (10 ^ k * 10 ^ (-k).toNat) * 2 ^ (-j).toNat
        = a * 10 ^ k * 10 ^ (-k).toNat * 2 ^ (-j).toNat := by ring
      _ = c * (2 ^ j * 2 ^ (-j).toNat) * 10 ^ (-k).toNat := by
        rw [h]
        ring
  exact_mod_cast hcast

theorem five_pow_dvd {n k c : Nat} (h : 5 ^ n ∣ c * 2 ^ k) : 5 ^ n ∣ c :=
  (Nat.Coprime.pow n k (by decide : Nat.Coprime 5 2)).dvd_of_dvd_mul_right h

theorem five_pow_dvd_ten_pow (n : Nat) : 5 ^ n ∣ 10 ^ n := by
  rw [show 10 = 5 * 2 from rfl, Nat.mul_pow]
  exact Nat.dvd_mul_right _ _

theorem le_of_five_pow_dvd {n c : Nat} (h : 5 ^ n ∣ c) (hc : 0 < c) (hlt : c < 2 ^ 53) :
    n ≤ 22 := by
  by_contra hlarge
  have hpow : 5 ^ 23 ≤ 5 ^ n := Nat.pow_le_pow_right (by decide) (by omega)
  have hle := Nat.le_of_dvd hc h
  omega

theorem exponent_bounds {c : Nat} {j : Int} (hs : 0 < s) (hlt : s < 2 ^ 53) (hc : 0 < c)
    (hclt : c < 2 ^ 53) (h : (s : ℚ) * 10 ^ e = c * 2 ^ j) : -22 ≤ e ∧ e ≤ 22 := by
  have hnat := natural_eq h
  have hupper : e.toNat ≤ 22 ∨ 0 < (-e).toNat := by
    rcases Nat.eq_zero_or_pos (-e).toNat with hzero | hpos
    · left
      rw [hzero, pow_zero, Nat.mul_one] at hnat
      refine le_of_five_pow_dvd (five_pow_dvd (k := j.toNat) ?_) hc hclt
      rw [← hnat, Nat.mul_assoc]
      exact ((five_pow_dvd_ten_pow _).mul_right _).mul_left _
    · exact .inr hpos
  have hlower : (-e).toNat ≤ 22 ∨ 0 < e.toNat := by
    rcases Nat.eq_zero_or_pos e.toNat with hzero | hpos
    · left
      rw [hzero, pow_zero, Nat.mul_one] at hnat
      refine le_of_five_pow_dvd (five_pow_dvd (k := (-j).toNat) ?_) hs hlt
      rw [hnat]
      exact (five_pow_dvd_ten_pow _).mul_left _
    · exact .inr hpos
  omega

/-- What is read for a decimal keeps to the side of a midpoint that the decimal is on, or on it. -/
theorem scale?_beside (h : x.Proper) (hd : x.Spelling d)
    (hhard : d ∉ Separation.hard) (hs : 0 < s)
    (hlt : s < 2 ^ 53) (hvalue : (s : ℚ) * 10 ^ e = d.value) (hb : Double.scale? s e = some b)
    (hnear : |b.value - d.value| ≤ d.value * Double.tolerance) (hv : x.Midpoint v) :
    d.value = v ∧ b.value = v ∨ |b.value - d.value| < |d.value - v| := by
  obtain ⟨c, j, hc, hclt, hj, hj', rfl⟩ := hv.eq_mul
  by_cases hlong : Separation.longCoefficient ≤ d.coefficient
  · exact .inr (hnear.trans_lt (far_of_long hd hlong hv))
  · have hcoefficient := hd.coefficient_pos h
    rcases Separation.eq_or_far_or_close hcoefficient (not_le.mp hlong) hc hclt hd.exponent_ge
      hd.exponent_le j with heq | hfar | hmem
    · left
      rw [← Decimal.value] at heq
      have hexact := hvalue.trans heq
      obtain ⟨hlow, hhigh⟩ := exponent_bounds hs hlt hc (by omega) hexact
      obtain ⟨b', hb', heq'⟩ := Double.scale?_exact hs hlt hlow hhigh hc (by omega) (by omega)
        (by omega) hexact
      obtain rfl : b' = b := Option.some.inj (hb'.symm.trans hb)
      exact ⟨heq, heq'⟩
    · exact .inr (hnear.trans_lt hfar)
    · exact absurd hmem hhard

theorem attracts_of_beside {w : ℚ} (hv : x.Attracts v)
    (hlow : v = x.mark x.quarters.1 ∧ w = x.mark x.quarters.1 ∨
      |w - v| < |v - x.mark x.quarters.1|)
    (hhigh : v = x.mark x.quarters.2 ∧ w = x.mark x.quarters.2 ∨
      |w - v| < |v - x.mark x.quarters.2|) : x.Attracts w := by
  have hvlow := hv.low
  have hvhigh := hv.high
  rw [abs_of_nonneg (sub_nonneg.mpr hvlow)] at hlow
  rw [abs_sub_comm v, abs_of_nonneg (sub_nonneg.mpr hvhigh)] at hhigh
  have habove := neg_abs_le (w - v)
  have hbelow := le_abs_self (w - v)
  refine ⟨?_, ?_, fun hodd => ⟨?_, ?_⟩⟩
  · rcases hlow with ⟨-, hw⟩ | hlow <;> linarith
  · rcases hhigh with ⟨-, hw⟩ | hhigh <;> linarith
  · have hinside := hv.inside hodd
    rcases hlow with ⟨hv, -⟩ | hlow <;> linarith
  · have hinside := hv.inside hodd
    rcases hhigh with ⟨hv, -⟩ | hhigh <;> linarith

/-- The hard decimals may be read onto a midpoint, which still rounds to the number they spell. -/
theorem scale?_hard : ∀ d ∈ Separation.hard, ∀ negative : Bool,
    (Numeral.ofScientific negative d.digits.1 d.digits.2).scaled = (d.coefficient, d.exponent) ∧
      (Double.scale? d.coefficient d.exponent).map BinaryFormat.single.roundBinary =
        some (BinaryFormat.single.round (d.coefficient * (Separation.power d.exponent).1)
          (Separation.power d.exponent).2) := by
  decide +kernel

theorem negative_toNumeral (h : x.Proper) : x.toNumeral.negative = x.isNegative := by
  rw [toNumeral_eq h, Numeral.ofScientific]
  split
  · rfl
  · split <;> rfl

theorem integer?_toNumeral (h : x.Proper) : x.toNumeral.integer? = none := by
  rw [toNumeral_eq h]
  exact Numeral.integer?_ofScientific
    (Decimal.significant_digits ((Spelling.shortest h .even).coefficient_pos h))

theorem ofNumeral?_of_scale? (h : x.Proper) (hscaled : x.toNumeral.scaled = (s, e)) (hs : 0 < s)
    (hlt : s < 2 ^ 53) (hlow : -53 ≤ e) (hhigh : e ≤ 48) (hb : Double.scale? s e = some b)
    (hx : ofBinary x.isNegative b = x) : ofNumeral? x.toNumeral = some x := by
  rw [ofNumeral?, integer?_toNumeral h]
  dsimp only
  rw [Double.ofNumeral?_eq hscaled hs hlt (by omega) (by omega), hb, negative_toNumeral h]
  exact congrArg some hx

theorem ofNumeral?_toNumeral_hard (h : x.Proper) (hhard : x.shortest .even ∈ Separation.hard) :
    ofNumeral? x.toNumeral = some x := by
  have hspelling := Spelling.shortest h .even
  obtain ⟨hscaled, hround⟩ := scale?_hard _ hhard x.isNegative
  obtain ⟨b, hb, hround⟩ := Option.map_eq_some_iff.mp hround
  have hcoefficient := hspelling.coefficient_pos h
  have hle := hspelling.coefficient_le
  have hexponent := hspelling.exponent_ge
  have hexponent' := hspelling.exponent_le
  have hpower := Separation.power_pos (x.shortest .even).exponent
  have hratio :
      (((x.shortest .even).coefficient * (Separation.power (x.shortest .even).exponent).1 : ℕ) :
        ℚ) / (Separation.power (x.shortest .even).exponent).2 = (x.shortest .even).value := by
    rw [Nat.cast_mul, mul_div_assoc, Separation.power_ratio, Decimal.value]
  rw [← toNumeral_eq h] at hscaled
  refine ofNumeral?_of_scale? h hscaled hcoefficient (by omega) hexponent (by omega) hb ?_
  rw [ofBinary, hround, round_attracted h hpower.2, ofMagnitude_magnitude h.isFinite]
  rw [hratio]
  exact admits_iff.mp hspelling.admits

theorem ofNumeral?_toNumeral_zero (hx : x.isFinite = true) (hzero : x.magnitude.coefficient = 0) :
    ofNumeral? x.toNumeral = some x := by
  have hmagnitude : x.magnitude = ⟨0, -149⟩ := by
    obtain ⟨-, -, -, hnormal⟩ := magnitude_bounds hx
    have hexponent : x.magnitude.exponent = -149 := by omega
    rw [← hzero, ← hexponent]
  have hnumeral : x.toNumeral = ⟨x.isNegative, [0], [0], none⟩ := by
    delta toNumeral
    dsimp only
    rw [if_pos hzero]
  rw [hnumeral]
  refine Eq.trans ?_ (congrArg some (ofMagnitude_magnitude hx))
  rw [hmagnitude]
  cases x.isNegative <;> decide +kernel

theorem ofNumeral?_toNumeral (hx : x.isFinite = true) : ofNumeral? x.toNumeral = some x := by
  by_cases hzero : x.magnitude.coefficient = 0
  · exact ofNumeral?_toNumeral_zero hx hzero
  · have h : x.Proper := ⟨hx, hzero⟩
    by_cases hhard : x.shortest .even ∈ Separation.hard
    · exact ofNumeral?_toNumeral_hard h hhard
    · have hspelling := Spelling.shortest h .even
      obtain ⟨s, e, hscaled, hs, hlt, hlow, hhigh, hvalue⟩ := scaled_toNumeral h
      obtain ⟨b, hb, hnear⟩ := Double.scale?_near hs hlt hlow hhigh
      rw [hvalue] at hnear
      have hbeside {v : ℚ} := @scale?_beside x _ v s e b h hspelling hhard hs hlt hvalue hb hnear
      have hattracts := attracts_of_beside (admits_iff.mp hspelling.admits)
        (hbeside (midpoint_low h)) (hbeside (midpoint_high h))
      exact ofNumeral?_of_scale? h hscaled hs hlt hlow hhigh hb (ofBinary_attracted h hattracts)

end Single

end Statechart
