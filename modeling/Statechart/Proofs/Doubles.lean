import Mathlib
import Statechart.Numeral
import Statechart.Proofs.Nearest

/-! Reading through double precision: a numeral is read with two roundings at most, and with none
where all its parts are exact. -/

namespace Statechart

theorem Binary.value_mul (a b : Binary) :
    (⟨a.coefficient * b.coefficient, a.exponent + b.exponent⟩ : Binary).value =
      a.value * b.value := by
  simp only [Binary.value]
  rw [zpow_add₀ (by norm_num)]
  push_cast
  ring

namespace Double

def scale? (s : Nat) (e : Int) : Option Binary :=
  (BinaryFormat.double.round s 1).bind fun f =>
    if e < 0 then some (quotient f (powerOfTen e.natAbs)) else product? f (powerOfTen e.natAbs)

variable {num den : Nat}

theorem round_exact (hd : 0 < den) {m : Nat} {j : Int} (hm : 0 < m) (hlt : m < 2 ^ 53)
    (hlow : -1074 ≤ j) (hhigh : j < 971) (h : (num : ℚ) / den = m * 2 ^ j) :
    ∃ b, BinaryFormat.double.round num den = some b ∧ b.value = m * 2 ^ j :=
  BinaryFormat.round_exact (by decide) hd hm hlt hlow hhigh h

/-- In the range that numbers of single precision need, double precision is never subnormal. -/
theorem round_near (hd : 0 < den) (hlow : (10 : ℚ) ^ (-60 : ℤ) ≤ num / den)
    (hhigh : (num : ℚ) / den ≤ 10 ^ (70 : ℤ)) :
    ∃ b, BinaryFormat.double.round num den = some b ∧
      |b.value - num / den| ≤ num / den / 2 ^ 53 := by
  refine BinaryFormat.round_near (by decide) hd (le_trans ?_ hlow) (hhigh.trans_lt ?_)
  · have hpow : (2 : ℚ) ^ (-1074 + 53 - 1 : ℤ) ≤ 2 ^ (-250 : ℤ) :=
      zpow_le_zpow_right₀ (by norm_num) (by norm_num)
    exact hpow.trans (by norm_num)
  · have hpow : (2 : ℚ) ^ (250 : ℤ) ≤ 2 ^ (971 + 53 - 1 : ℤ) :=
      zpow_le_zpow_right₀ (by norm_num) (by norm_num)
    exact lt_of_lt_of_le (by norm_num) hpow

theorem round_natCast {s : Nat} (hs : 0 < s) (hlt : s < 2 ^ 53) :
    ∃ f, BinaryFormat.double.round s 1 = some f ∧ f.value = s := by
  have hexact := @round_exact s 1 (by decide) s 0 hs hlt (by decide)
    (by decide) (by simp)
  simpa using hexact

theorem powerOfTen_near {n : Nat} (hn : n ≤ 53) :
    |(powerOfTen n).value - 10 ^ n| ≤ 10 ^ n / 2 ^ 53 := by
  have hone : (1 : ℚ) ≤ 10 ^ n := one_le_pow₀ (by norm_num)
  have hpow : (10 : ℚ) ^ n ≤ 10 ^ 53 := pow_le_pow_right₀ (by norm_num) hn
  have hratio : ((10 ^ n : Nat) : ℚ) / (1 : Nat) = 10 ^ n := by simp
  have hnear := @round_near (10 ^ n) 1 (by decide)
  rw [hratio] at hnear
  obtain ⟨b, hround, hnear⟩ := hnear (hone.trans' (by norm_num)) (hpow.trans (by norm_num))
  rwa [powerOfTen, hround, Option.getD_some]

theorem powerOfTen_bounds {n : Nat} (hn : n ≤ 53) :
    1 / 2 ≤ (powerOfTen n).value ∧ (powerOfTen n).value ≤ 2 * 10 ^ 53 := by
  have hone : (1 : ℚ) ≤ 10 ^ n := one_le_pow₀ (by norm_num)
  have hpow : (10 : ℚ) ^ n ≤ 10 ^ 53 := pow_le_pow_right₀ (by norm_num) hn
  have hbounds := abs_le.mp (powerOfTen_near hn)
  norm_num at hbounds hpow ⊢
  constructor <;> linarith

theorem powerOfTen_exact {n : Nat} (hn : n ≤ 22) : (powerOfTen n).value = 10 ^ n := by
  have hpow : 5 ^ n < 2 ^ 53 := (Nat.pow_le_pow_right (by decide) hn).trans_lt (by decide)
  have hsplit : (10 : ℚ) ^ n = (5 ^ n : Nat) * 2 ^ (n : ℤ) := by
    rw [zpow_natCast]
    push_cast
    rw [← mul_pow]
    norm_num
  obtain ⟨b, hround, hvalue⟩ := @round_exact (10 ^ n) 1 (by decide) (5 ^ n) n
    (by positivity) hpow (by omega) (by omega) (by rw [← hsplit]; simp)
  rw [powerOfTen, hround, Option.getD_some, hvalue, hsplit]

/-- How far a read number can be off, in relation to the number that is spelled. -/
def tolerance : ℚ := 1 / 2 ^ 52 + 1 / 2 ^ 72

theorem near_quotient {v q p t y : ℚ} (hv : 0 < v) (ht : 0 < t) (hq : q * p = v * t)
    (hp : |p - t| ≤ t / 2 ^ 53) (hy : |y - q| ≤ q / 2 ^ 53) : |y - v| ≤ v * tolerance := by
  rw [abs_le] at hp hy ⊢
  have hp0 : 0 < p := by
    norm_num at hp
    linarith
  have hq0 : 0 < q := by
    have : 0 < q * p := by
      rw [hq]
      positivity
    exact (mul_pos_iff_of_pos_right hp0).mp this
  have hhigh : q * (1 - 1 / 2 ^ 53) ≤ v := by
    refine le_of_mul_le_mul_right ?_ ht
    rw [← hq]
    nlinarith
  have hlow : v ≤ q * (1 + 1 / 2 ^ 53) := by
    refine le_of_mul_le_mul_right ?_ ht
    rw [← hq]
    nlinarith
  rw [tolerance]
  norm_num at *
  constructor <;> linarith

theorem near_product {v s p t y : ℚ} (hs : 0 < s) (ht : 0 < t) (hv : v = s * t)
    (hp : |p - t| ≤ t / 2 ^ 53) (hy : |y - s * p| ≤ s * p / 2 ^ 53) : |y - v| ≤ v * tolerance := by
  rw [abs_le] at hp hy ⊢
  have hlow : v * (1 - 1 / 2 ^ 53) ≤ s * p := by
    rw [hv]
    nlinarith
  have hhigh : s * p ≤ v * (1 + 1 / 2 ^ 53) := by
    rw [hv]
    nlinarith
  have hv0 : 0 < v := by
    rw [hv]
    positivity
  rw [tolerance]
  norm_num at *
  constructor <;> linarith

theorem dividedBy_eq {a : Binary} {n : Nat} (hn : n ≤ 308) :
    dividedBy a n = quotient a (powerOfTen n) := by
  rw [dividedBy, if_pos hn]

variable {s : Nat} {e : Int}

theorem ofNumeral?_eq {n : Numeral} (h : n.scaled = (s, e)) (hs : 0 < s) (hlt : s < 2 ^ 53)
    (hlow : -308 ≤ e) (hhigh : e ≤ 308) :
    ofNumeral? n = (scale? s e).map fun b => ⟨n.negative, b⟩ := by
  obtain ⟨f, hround, hvalue⟩ := round_natCast hs hlt
  have hsq : (0 : ℚ) < s := by exact_mod_cast hs
  have hf : f.coefficient ≠ 0 := by
    intro hzero
    rw [Binary.value, hzero, Nat.cast_zero, zero_mul] at hvalue
    exact hsq.ne hvalue
  simp only [ofNumeral?, scale?, h, hround, Option.bind_eq_bind, Option.bind_some]
  split
  · rw [dividedBy_eq (by omega)]
    rfl
  · rw [if_neg (by omega)]
    cases product? f (powerOfTen e.natAbs) <;> rfl

/-- The ratio that is rounded last. -/
theorem exists_ratio (hs : 0 < s) (hlt : s < 2 ^ 53)
    (hp : 0 < (powerOfTen e.natAbs).value) :
    ∃ num den : Nat, 0 < den ∧ (num : ℚ) / den = (if e < 0 then s / (powerOfTen e.natAbs).value
        else s * (powerOfTen e.natAbs).value) ∧
      ∀ b, BinaryFormat.double.round num den = some b → scale? s e = some b := by
  obtain ⟨f, hround, hvalue⟩ := round_natCast hs hlt
  generalize hb : powerOfTen e.natAbs = p at hp
  by_cases hneg : e < 0
  · have hratio := p.ratio_eq
    have hden := p.ratio_snd_pos
    have hfden := f.ratio_snd_pos
    have hnum : 0 < p.ratio.1 := by
      rcases Nat.eq_zero_or_pos p.ratio.1 with hzero | hpos
      · rw [hzero, Nat.cast_zero, zero_div] at hratio
        exact absurd hratio hp.ne
      · exact hpos
    refine ⟨f.ratio.1 * p.ratio.2, f.ratio.2 * p.ratio.1, by positivity, ?_, fun b hb' => ?_⟩
    · rw [if_pos hneg, ← hvalue, ← f.ratio_eq, ← hratio]
      push_cast
      rw [div_div_div_eq]
    · rw [scale?, hround, Option.bind_some, if_pos hneg, hb, quotient, hb', Option.getD_some]
  · let c : Binary := ⟨f.coefficient * p.coefficient, f.exponent + p.exponent⟩
    refine ⟨c.ratio.1, c.ratio.2, c.ratio_snd_pos, ?_, fun b hb' => ?_⟩
    · rw [c.ratio_eq, Binary.value_mul, hvalue, if_neg hneg]
    · rw [scale?, hround, Option.bind_some, if_neg hneg, hb, product?, BinaryFormat.roundBinary,
        hb']

theorem mul_zpow_eq (v : ℚ) (e : Int) :
    v * 10 ^ e = if e < 0 then v / 10 ^ e.natAbs else v * 10 ^ e.natAbs := by
  split
  · have hexponent : e = -(e.natAbs : ℤ) := by omega
    rw [hexponent, zpow_neg, Int.natAbs_neg, Int.natAbs_natCast, zpow_natCast, div_eq_mul_inv]
  · have hexponent : e = (e.natAbs : ℤ) := by omega
    rw [hexponent, Int.natAbs_natCast, zpow_natCast]

theorem range_quotient {v p : ℚ} (hv : 1 ≤ v) (hv' : v ≤ 10 ^ 16) (hp : 1 / 2 ≤ p)
    (hp' : p ≤ 2 * 10 ^ 53) : (10 : ℚ) ^ (-60 : ℤ) ≤ v / p ∧ v / p ≤ 10 ^ (70 : ℤ) := by
  have hpos : 0 < p := by linarith
  rw [le_div_iff₀ hpos, div_le_iff₀ hpos]
  norm_num at hv' hp' ⊢
  constructor <;> linarith

theorem range_product {v p : ℚ} (hv : 1 ≤ v) (hv' : v ≤ 10 ^ 16) (hp : 1 / 2 ≤ p)
    (hp' : p ≤ 2 * 10 ^ 53) : (10 : ℚ) ^ (-60 : ℤ) ≤ v * p ∧ v * p ≤ 10 ^ (70 : ℤ) := by
  constructor
  · calc (10 : ℚ) ^ (-60 : ℤ) ≤ 1 * (1 / 2) := by norm_num
      _ ≤ v * p := by gcongr
  · calc v * p ≤ 10 ^ 16 * (2 * 10 ^ 53) := by gcongr
      _ ≤ 10 ^ (70 : ℤ) := by norm_num

theorem scale?_near (hs : 0 < s) (hlt : s < 2 ^ 53) (hlow : -53 ≤ e) (hhigh : e ≤ 48) :
    ∃ b, scale? s e = some b ∧ |b.value - s * 10 ^ e| ≤ s * 10 ^ e * tolerance := by
  have hpower := @powerOfTen_near e.natAbs (by omega)
  obtain ⟨hplow, hphigh⟩ := @powerOfTen_bounds e.natAbs (by omega)
  have hp : 0 < (powerOfTen e.natAbs).value := by linarith
  have hsq : (1 : ℚ) ≤ s := by exact_mod_cast hs
  have hltq : (s : ℚ) ≤ 10 ^ 16 := by
    have hle : s ≤ 10 ^ 16 := (hlt.trans (by decide)).le
    exact_mod_cast hle
  obtain ⟨num, den, hden, hratio, hscale⟩ := exists_ratio hs hlt hp
  rw [mul_zpow_eq]
  by_cases hneg : e < 0
  · rw [if_pos hneg] at hratio ⊢
    obtain ⟨hsmall, hlarge⟩ := range_quotient hsq hltq hplow hphigh
    rw [← hratio] at hsmall hlarge
    obtain ⟨b, hround, hnear⟩ := round_near hden hsmall hlarge
    rw [hratio] at hnear
    have hcancel : (s : ℚ) / (powerOfTen e.natAbs).value * (powerOfTen e.natAbs).value =
        s / 10 ^ e.natAbs * 10 ^ e.natAbs := by
      rw [div_mul_cancel₀ _ hp.ne', div_mul_cancel₀ _ (by positivity)]
    exact ⟨b, hscale b hround, near_quotient (by positivity) (by positivity) hcancel hpower hnear⟩
  · rw [if_neg hneg] at hratio ⊢
    obtain ⟨hsmall, hlarge⟩ := range_product hsq hltq hplow hphigh
    rw [← hratio] at hsmall hlarge
    obtain ⟨b, hround, hnear⟩ := round_near hden hsmall hlarge
    rw [hratio] at hnear
    exact ⟨b, hscale b hround, near_product (by positivity) (by positivity) rfl hpower hnear⟩

theorem scale?_exact (hs : 0 < s) (hlt : s < 2 ^ 53) (hlow : -22 ≤ e) (hhigh : e ≤ 22) {m : Nat}
    {j : Int} (hm : 0 < m) (hmlt : m < 2 ^ 53) (hj : -1074 ≤ j) (hj' : j < 971)
    (h : (s : ℚ) * 10 ^ e = m * 2 ^ j) : ∃ b, scale? s e = some b ∧ b.value = m * 2 ^ j := by
  have hpower := powerOfTen_exact (n := e.natAbs) (by omega)
  have hp : 0 < (powerOfTen e.natAbs).value := by
    rw [hpower]
    positivity
  obtain ⟨num, den, hden, hratio, hscale⟩ := exists_ratio hs hlt hp
  have hexact : (num : ℚ) / den = m * 2 ^ j := by
    rw [hratio, hpower, ← h, mul_zpow_eq]
  obtain ⟨b, hround, hvalue⟩ := round_exact hden hm hmlt hj hj' hexact
  exact ⟨b, hscale b hround, hvalue⟩

end Double

end Statechart
