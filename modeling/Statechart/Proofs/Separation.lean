import Mathlib
import Statechart.Proofs.Doubles

/-! Short decimals keep away from the midpoints between numbers of single precision: unless they are
equal, they are further apart than the tolerance of reading, save for six decimals. -/

namespace Statechart

namespace Separation

/-- Decimals from this coefficient on have steps too small to reach a midpoint. -/
def longCoefficient : Nat := 33554464

/-- The last convergent of `a / b` whose denominator is at most `most`, given the two before. -/
def convergent (most : Nat) : Nat → Nat → Nat → Nat × Nat → Nat × Nat → Nat × Nat
  | 0, _, _, _, r => r
  | fuel + 1, a, b, (p, q), (p', q') =>
    if b = 0 then (p', q')
    else
      let p'' := p + a / b * p'
      let q'' := q + a / b * q'
      if most < q'' then (p', q') else convergent most fuel b (a % b) (p', q') (p'', q'')

def power (e : Int) : Nat × Nat := inUnits 10 (-e) 1 1

/-- Coefficients, with their exponents, of decimals that are nearer to a midpoint. -/
def close : List (Nat × Int) :=
  [(28154124, -32), (28874659, 15), (25645849, -15), (22841339, 32)]

/-- The decimals with those coefficients, and with what is left of them by halving. -/
def hard : List Decimal :=
  [⟨7038531, -32⟩, ⟨14077062, -32⟩, ⟨28154124, -32⟩, ⟨28874659, 15⟩, ⟨25645849, -15⟩,
    ⟨22841339, 32⟩]

/-- The tolerance of reading, as a multiple of `2 ^ -72`. -/
def slack : Nat := 2 ^ 20 + 1

theorem tolerance_eq : Double.tolerance = slack / 2 ^ 72 := by
  rw [Double.tolerance, slack]
  norm_num

/-- With `n / m` for `10 ^ e / 2 ^ j`, scaled coefficients `d` and `c` that bring `d * n` near to
`c * m` are out of their range, or in the proportion of the fraction `p / q`. Such ones are equal,
too far apart, again out of range, or known. -/
structure Clear (e : Int) (n m p q : Nat) : Prop where
  fine : longCoefficient * ((q * n).dist (p * m) * 2 ^ 72 + slack * (q * n)) < m * 2 ^ 72 ∨
    2 ^ 25 * ((q * n).dist (p * m) * 2 ^ 72 + slack * (q * n)) < n * 2 ^ 72
  reduced : p.gcd q = 1
  proportional : q * n = p * m ∨ slack * (q * n) < (q * n).dist (p * m) * 2 ^ 72 ∨
    longCoefficient ≤ q ∨ 2 ^ 25 ≤ p ∨
    (2 * q < longCoefficient ∨ p < 2 ^ 24) ∧ (longCoefficient ≤ 2 * q ∨ 2 ^ 25 ≤ 2 * p) ∨
    (q, e) ∈ close ∧ longCoefficient ≤ 2 * q

/-- Whether all scaled coefficients are out of range. -/
def Apart (n m : Nat) : Prop := longCoefficient * n * (2 ^ 72 + slack) < 2 ^ 24 * m * 2 ^ 72

instance (e : Int) (n m p q : Nat) : Decidable (Clear e n m p q) :=
  decidable_of_iff (_ ∧ _ ∧ _)
    ⟨fun ⟨h, h', h''⟩ => ⟨h, h', h''⟩, fun h => ⟨h.fine, h.reduced, h.proportional⟩⟩

instance (n m : Nat) : Decidable (Apart n m) := inferInstanceAs (Decidable (_ < _))

def ratio (e j : Int) : Nat × Nat := inUnits 2 j (power e).1 (power e).2

theorem clear_all : ∀ i ∈ List.range 92, ∀ k ∈ List.range 3,
    let e : Int := i - 53
    let r := ratio e (floorLog (power e).1 (power e).2 + k)
    let c := convergent (2 ^ 26) 100 r.1 r.2 (0, 1) (1, 0)
    Apart r.1 r.2 ∨ Clear e r.1 r.2 c.1 c.2 := by
  decide +kernel

theorem exists_scale {c most : Nat} (hc : 0 < c) (hlt : c < most) :
    ∃ a, c * 2 ^ a < most ∧ most ≤ 2 * (c * 2 ^ a) := by
  by_cases hdone : most ≤ 2 * c
  · exact ⟨0, by simpa using hlt, by simpa using hdone⟩
  · obtain ⟨a, ha, ha'⟩ := exists_scale (c := 2 * c) (by omega) (Nat.lt_of_not_le hdone)
    have hshift : c * 2 ^ (a + 1) = 2 * c * 2 ^ a := by
      rw [pow_succ]
      ring
    exact ⟨a + 1, by rwa [hshift], by rwa [hshift]⟩
termination_by most - c

theorem power_ratio (e : Int) : ((power e).1 : ℚ) / (power e).2 = 10 ^ e := by
  have hunits := inUnits_ratio (by decide : 0 < 10) (-e) 1 1
  rw [power, hunits]
  simp

theorem power_pos (e : Int) : 0 < (power e).1 ∧ 0 < (power e).2 :=
  ⟨Nat.mul_pos (by decide) (Nat.pow_pos (by decide)), inUnits_pos (by decide) (by decide) _ _⟩

theorem ratio_pos (e j : Int) : 0 < (ratio e j).1 ∧ 0 < (ratio e j).2 :=
  ⟨Nat.mul_pos (power_pos e).1 (Nat.pow_pos (by decide)),
    inUnits_pos (by decide) (power_pos e).2 _ _⟩

theorem ratio_eq (e j : Int) : ((ratio e j).1 : ℚ) / (ratio e j).2 = 10 ^ e / 2 ^ j := by
  rw [ratio, inUnits_ratio (by decide), power_ratio]
  norm_num

theorem cast_dist (a b : Nat) : ((a.dist b : Nat) : ℚ) = |(a : ℚ) - b| := by
  rcases Nat.le_total a b with h | h
  · have hq : (a : ℚ) ≤ b := by exact_mod_cast h
    rw [Nat.dist_eq_sub_of_le h, Nat.cast_sub h, abs_sub_comm, abs_of_nonneg (by linarith)]
  · have hq : (b : ℚ) ≤ a := by exact_mod_cast h
    rw [Nat.dist_eq_sub_of_le_right h, Nat.cast_sub h, abs_of_nonneg (by linarith)]

variable {e j : Int} {c d m n p q : Nat}

theorem near_units (h : |(d : ℚ) * 10 ^ e - c * 2 ^ j| ≤ d * 10 ^ e * Double.tolerance) :
    (d * (ratio e j).1).dist (c * (ratio e j).2) * 2 ^ 72 ≤ slack * (d * (ratio e j).1) := by
  have hm : (0 : ℚ) < (ratio e j).2 := by exact_mod_cast (ratio_pos e j).2
  have hpow : (0 : ℚ) < 2 ^ j := by positivity
  have hratio := ratio_eq e j
  rw [div_eq_div_iff hm.ne' hpow.ne'] at hratio
  have hunit : (0 : ℚ) < (ratio e j).2 / 2 ^ j := by positivity
  have hten : (10 : ℚ) ^ e * ((ratio e j).2 / 2 ^ j) = (ratio e j).1 := by
    rw [← mul_div_assoc, ← hratio, mul_div_assoc, div_self hpow.ne', mul_one]
  have htwo : (2 : ℚ) ^ j * ((ratio e j).2 / 2 ^ j) = (ratio e j).2 := mul_div_cancel₀ _ hpow.ne'
  have hscaled := mul_le_mul_of_nonneg_right h hunit.le
  rw [← abs_of_pos hunit, ← abs_mul, abs_of_pos hunit, sub_mul, mul_assoc, mul_assoc, hten, htwo,
    mul_right_comm, mul_assoc (d : ℚ), hten, tolerance_eq] at hscaled
  have hcast : (((d * (ratio e j).1).dist (c * (ratio e j).2) : Nat) : ℚ) * 2 ^ 72 ≤
      (slack : ℚ) * (d * (ratio e j).1) := by
    rw [cast_dist]
    push_cast
    calc |(d : ℚ) * (ratio e j).1 - c * (ratio e j).2| * 2 ^ 72
        ≤ d * (ratio e j).1 * (slack / 2 ^ 72) * 2 ^ 72 := by gcongr
      _ = (slack : ℚ) * (d * (ratio e j).1) := by ring
  exact_mod_cast hcast

theorem cast_near (h : (d * n).dist (c * m) * 2 ^ 72 ≤ slack * (d * n)) :
    |(d * n : ℚ) - c * m| * 2 ^ 72 ≤ slack * (d * n) := by
  have hcast : (((d * n).dist (c * m) : Nat) : ℚ) * 2 ^ 72 ≤ (slack : ℚ) * (d * n) := by
    exact_mod_cast h
  rw [cast_dist] at hcast
  push_cast at hcast
  exact hcast

def offset (n m p q : Nat) : ℚ := |(q * n : ℚ) - p * m| * 2 ^ 72 + slack * (q * n)

theorem cast_offset (n m p q : Nat) :
    (((q * n).dist (p * m) * 2 ^ 72 + slack * (q * n) : Nat) : ℚ) = offset n m p q := by
  rw [offset]
  push_cast [cast_dist]
  rfl

theorem offset_nonneg (n m p q : Nat) : 0 ≤ offset n m p q := by
  rw [offset]
  positivity

theorem mul_offset_lt (hclear : Clear e n m p q) (hm : 0 < m) (hn : 0 < n)
    (hd : d < longCoefficient) (hc : c < 2 ^ 25)
    (h : |(d * n : ℚ) - c * m| * 2 ^ 72 ≤ slack * (d * n)) : d * offset n m p q < m * 2 ^ 72 := by
  have hmq : (0 : ℚ) < m := by exact_mod_cast hm
  have hnq : (0 : ℚ) < n := by exact_mod_cast hn
  have hdq : (d : ℚ) ≤ longCoefficient := by exact_mod_cast hd.le
  have hcq : (c : ℚ) ≤ 2 ^ 25 - 1 := by
    rw [le_sub_iff_add_le]
    exact_mod_cast hc
  have hoffset := offset_nonneg n m p q
  rcases hclear.fine with hfine | hfine
  · have hcast : (longCoefficient : ℚ) * offset n m p q < m * 2 ^ 72 := by
      rw [← cast_offset]
      exact_mod_cast hfine
    exact (mul_le_mul_of_nonneg_right hdq hoffset).trans_lt hcast
  · have hcast : (2 : ℚ) ^ 25 * offset n m p q < n * 2 ^ 72 := by
      rw [← cast_offset]
      exact_mod_cast hfine
    have hbound : (d : ℚ) * n ≤ 2 ^ 25 * m := by
      have habs := le_abs_self ((d * n : ℚ) - c * m)
      have hcm : (c : ℚ) * m ≤ (2 ^ 25 - 1) * m := by gcongr
      have hslack : (slack : ℚ) = 2 ^ 20 + 1 := by norm_num [slack]
      rw [hslack] at h
      norm_num at *
      linarith
    refine lt_of_mul_lt_mul_right ?_ hnq.le
    calc (d : ℚ) * offset n m p q * n = d * n * offset n m p q := by ring
      _ ≤ 2 ^ 25 * m * offset n m p q := by gcongr
      _ = m * (2 ^ 25 * offset n m p q) := by ring
      _ < m * (n * 2 ^ 72) := by gcongr
      _ = m * 2 ^ 72 * n := by ring

theorem cross_le (h : |(d * n : ℚ) - c * m| * 2 ^ 72 ≤ slack * (d * n)) :
    |(m : ℚ) * (d * p - c * q)| * 2 ^ 72 ≤ d * offset n m p q := by
  have hexpand : (m : ℚ) * (d * p - c * q) = q * (d * n - c * m) - d * (q * n - p * m) := by ring
  rw [hexpand]
  calc |(q : ℚ) * (d * n - c * m) - d * (q * n - p * m)| * 2 ^ 72
      ≤ (|(q : ℚ) * (d * n - c * m)| + |(d : ℚ) * (q * n - p * m)|) * 2 ^ 72 := by
        gcongr
        exact abs_sub _ _
    _ = q * (|(d * n : ℚ) - c * m| * 2 ^ 72) + d * (|(q * n : ℚ) - p * m| * 2 ^ 72) := by
        rw [abs_mul, abs_mul, Nat.abs_cast, Nat.abs_cast]
        ring
    _ ≤ q * (slack * (d * n)) + d * (|(q * n : ℚ) - p * m| * 2 ^ 72) := by gcongr
    _ = d * offset n m p q := by
        rw [offset]
        ring

/-- Near coefficients within their ranges are in the proportion of the convergent: what they and the
convergent are off by is less than one. -/
theorem mul_eq_mul_of_near (hclear : Clear e n m p q) (hm : 0 < m) (hn : 0 < n)
    (hd : d < longCoefficient) (hc : c < 2 ^ 25)
    (h : (d * n).dist (c * m) * 2 ^ 72 ≤ slack * (d * n)) : d * p = c * q := by
  have hmq : (0 : ℚ) < m := by exact_mod_cast hm
  have hnear := cast_near h
  have hdiff := (cross_le hnear).trans_lt (mul_offset_lt hclear hm hn hd hc hnear)
  rw [abs_mul, abs_of_pos hmq] at hdiff
  have hone : |((d * p : ℕ) : ℤ) - (c * q : ℕ)| < 1 := by
    have hlt : |(d * p : ℚ) - c * q| < 1 := by
      refine lt_of_mul_lt_mul_left ?_ (by positivity : (0 : ℚ) ≤ m * 2 ^ 72)
      linarith
    exact_mod_cast hlt
  have hzero := Int.abs_lt_one_iff.mp hone
  omega

theorem exists_multiple (hreduced : p.gcd q = 1) (hd : 0 < d) (h : d * p = c * q) :
    ∃ t, 0 < t ∧ d = q * t ∧ c = p * t := by
  obtain ⟨t, rfl⟩ : q ∣ d := by
    have hdvd : q ∣ d * p := ⟨c, by rw [h, Nat.mul_comm]⟩
    exact (Nat.Coprime.symm hreduced).dvd_of_dvd_mul_right hdvd
  refine ⟨t, Nat.pos_of_mul_pos_left hd, rfl, ?_⟩
  refine Nat.eq_of_mul_eq_mul_right (Nat.pos_of_mul_pos_right hd) ?_
  rw [← h]
  ring

theorem near_of_multiple {t : Nat} (ht : 0 < t)
    (h : (q * t * n).dist (p * t * m) * 2 ^ 72 ≤ slack * (q * t * n)) :
    (q * n).dist (p * m) * 2 ^ 72 ≤ slack * (q * n) := by
  have hdist : (q * t * n).dist (p * t * m) = (q * n).dist (p * m) * t := by
    rw [← Nat.dist_mul_right]
    congr 1 <;> ring
  refine Nat.le_of_mul_le_mul_right ?_ ht
  calc (q * n).dist (p * m) * 2 ^ 72 * t = (q * t * n).dist (p * t * m) * 2 ^ 72 := by
        rw [hdist]
        ring
    _ ≤ slack * (q * t * n) := h
    _ = slack * (q * n) * t := by ring

theorem eq_or_close (hclear : Clear e n m p q) (hm : 0 < m) (hn : 0 < n)
    (hd : d < longCoefficient) (hd' : longCoefficient ≤ 2 * d) (hc : c < 2 ^ 25)
    (hc' : 2 ^ 25 ≤ 2 * c) (h : (d * n).dist (c * m) * 2 ^ 72 ≤ slack * (d * n)) :
    d * n = c * m ∨ (d, e) ∈ close := by
  have hcross := mul_eq_mul_of_near hclear hm hn hd hc h
  have hdpos : 0 < d := by
    have hlong : 0 < longCoefficient := by decide
    omega
  obtain ⟨t, ht, rfl, rfl⟩ := exists_multiple hclear.reduced hdpos hcross
  have hq : q ≤ q * t := Nat.le_mul_of_pos_right q ht
  have hp : p ≤ p * t := Nat.le_mul_of_pos_right p ht
  have hone (hlarge : longCoefficient ≤ 2 * q ∨ 2 ^ 25 ≤ 2 * p) : t = 1 := by
    by_contra hne
    have hq2 : q * 2 ≤ q * t := Nat.mul_le_mul_left q (by omega)
    have hp2 : p * 2 ≤ p * t := Nat.mul_le_mul_left p (by omega)
    omega
  rcases hclear.proportional with heq | hfar | hq' | hp' | ⟨hsmall, hlarge⟩ | ⟨hclose, hlarge⟩
  · left
    calc q * t * n = q * n * t := by ring
      _ = p * m * t := by rw [heq]
      _ = p * t * m := by ring
  · have hnear := near_of_multiple ht h
    omega
  · omega
  · omega
  · obtain rfl := hone hlarge
    omega
  · obtain rfl := hone (.inl hlarge)
    exact .inr (by simpa using hclose)

theorem not_apart (hd : d < longCoefficient) (hc : 2 ^ 25 ≤ 2 * c)
    (h : (d * n).dist (c * m) * 2 ^ 72 ≤ slack * (d * n)) : ¬Apart n m := by
  intro hapart
  have htri := Nat.dist_tri_left (d * n) (c * m)
  have hdn : d * n ≤ longCoefficient * n := Nat.mul_le_mul_right n hd.le
  have hcm : 2 ^ 24 * m ≤ c * m := Nat.mul_le_mul_right m (by omega)
  simp only [Apart, slack] at hapart h
  omega

theorem log_bounds (hd : d < longCoefficient) (hd' : longCoefficient ≤ 2 * d) (hc : c < 2 ^ 25)
    (hc' : 2 ^ 25 ≤ 2 * c) (h : |(d : ℚ) * 10 ^ e - c * 2 ^ j| ≤ d * 10 ^ e * Double.tolerance) :
    floorLog (power e).1 (power e).2 ≤ j ∧ j < floorLog (power e).1 (power e).2 + 3 := by
  obtain ⟨hlow, hhigh⟩ := floorLog_bounds (power_pos e).1 (power_pos e).2
  rw [power_ratio] at hlow hhigh
  have hdq : (d : ℚ) ≤ 33554464 := by exact_mod_cast hd.le
  have hdq' : (33554464 : ℚ) ≤ 2 * d := by exact_mod_cast hd'
  have hcq : (c : ℚ) ≤ 33554432 := by exact_mod_cast hc.le
  have hcq' : (33554432 : ℚ) ≤ 2 * c := by exact_mod_cast hc'
  have hten : (0 : ℚ) < 10 ^ e := by positivity
  have htwo : (0 : ℚ) < 2 ^ j := by positivity
  have htolerance : Double.tolerance ≤ 1 / 1073741824 := by
    rw [Double.tolerance]
    norm_num
  obtain ⟨habove, hbelow⟩ := abs_le.mp h
  have hproduct : (d : ℚ) * 10 ^ e * Double.tolerance ≤ d * 10 ^ e * (1 / 1073741824) := by gcongr
  have hdlow : 16777232 * (10 : ℚ) ^ e ≤ d * 10 ^ e := by
    gcongr
    linarith
  have hdhigh : (d : ℚ) * 10 ^ e ≤ 33554464 * 10 ^ e := by gcongr
  have hclow : 16777216 * (2 : ℚ) ^ j ≤ c * 2 ^ j := by
    gcongr
    linarith
  have hchigh : (c : ℚ) * 2 ^ j ≤ 33554432 * 2 ^ j := by gcongr
  have hhalf : (2 : ℚ) ^ floorLog (power e).1 (power e).2 < 2 ^ (j + 1) := by
    rw [zpow_add_one₀ (by norm_num)]
    linarith
  have htwice : (2 : ℚ) ^ j < 2 ^ (floorLog (power e).1 (power e).2 + 1 + 1 + 1) := by
    rw [zpow_add_one₀ (by norm_num), zpow_add_one₀ (by norm_num)]
    linarith
  have hfirst := (zpow_lt_zpow_iff_right₀ (by norm_num : (1 : ℚ) < 2)).mp hhalf
  have hlast := (zpow_lt_zpow_iff_right₀ (by norm_num : (1 : ℚ) < 2)).mp htwice
  omega

theorem eq_half {a : Nat} (h : d * 2 ^ a = n) (hn : n % 8 ≠ 0) : d = n ∨ 2 * d = n ∨ 4 * d = n := by
  match a with
  | 0 => omega
  | 1 => omega
  | 2 => omega
  | a + 3 =>
    rw [Nat.pow_add, ← Nat.mul_assoc] at h
    omega

theorem mem_hard_of_close {a : Nat} (h : (d * 2 ^ a, e) ∈ close) : ⟨d, e⟩ ∈ hard := by
  simp only [close, List.mem_cons, List.not_mem_nil, or_false, Prod.mk.injEq] at h
  rcases h with ⟨h, rfl⟩ | ⟨h, rfl⟩ | ⟨h, rfl⟩ | ⟨h, rfl⟩
  · rcases eq_half h (by decide) with rfl | hd | hd
    · decide
    · obtain rfl : d = 14077062 := by omega
      decide
    · obtain rfl : d = 7038531 := by omega
      decide
  · obtain rfl : d = 28874659 := by
      have hd := eq_half h (by decide)
      omega
    decide
  · obtain rfl : d = 25645849 := by
      have hd := eq_half h (by decide)
      omega
    decide
  · obtain rfl : d = 22841339 := by
      have hd := eq_half h (by decide)
      omega
    decide

theorem eq_of_units (h : d * (ratio e j).1 = c * (ratio e j).2) :
    (d : ℚ) * 10 ^ e = c * 2 ^ j := by
  have hratio := ratio_eq e j
  have hm : (0 : ℚ) < (ratio e j).2 := by exact_mod_cast (ratio_pos e j).2
  have htwo : (0 : ℚ) < 2 ^ j := by positivity
  have hcast : (d : ℚ) * (ratio e j).1 = c * (ratio e j).2 := by exact_mod_cast h
  rw [div_eq_div_iff hm.ne' htwo.ne'] at hratio
  refine mul_right_cancel₀ hm.ne' ?_
  calc (d : ℚ) * 10 ^ e * (ratio e j).2 = d * (10 ^ e * (ratio e j).2) := by ring
    _ = d * (ratio e j).1 * 2 ^ j := by
      rw [← hratio]
      ring
    _ = c * 2 ^ j * (ratio e j).2 := by
      rw [hcast]
      ring

theorem apart_or_clear (hlow : -53 ≤ e) (hhigh : e ≤ 38)
    (hj : floorLog (power e).1 (power e).2 ≤ j) (hj' : j < floorLog (power e).1 (power e).2 + 3) :
    Apart (ratio e j).1 (ratio e j).2 ∨ ∃ p q, Clear e (ratio e j).1 (ratio e j).2 p q := by
  have hchecked := clear_all (e + 53).toNat (List.mem_range.mpr (by omega))
    (j - floorLog (power e).1 (power e).2).toNat (List.mem_range.mpr (by omega))
  have he : (((e + 53).toNat : ℕ) : ℤ) - 53 = e := by omega
  have hexponent : floorLog (power e).1 (power e).2 +
      ((j - floorLog (power e).1 (power e).2).toNat : ℕ) = j := by omega
  simp only [he, hexponent] at hchecked
  exact hchecked.imp id fun hclear => ⟨_, _, hclear⟩

theorem eq_or_close_of_near (hd : d < longCoefficient) (hd' : longCoefficient ≤ 2 * d)
    (hc : c < 2 ^ 25) (hc' : 2 ^ 25 ≤ 2 * c) (hlow : -53 ≤ e) (hhigh : e ≤ 38)
    (h : |(d : ℚ) * 10 ^ e - c * 2 ^ j| ≤ d * 10 ^ e * Double.tolerance) :
    (d : ℚ) * 10 ^ e = c * 2 ^ j ∨ (d, e) ∈ close := by
  obtain ⟨hfirst, hlast⟩ := log_bounds hd hd' hc hc' h
  obtain ⟨hn, hm⟩ := ratio_pos e j
  have hunits := near_units h
  rcases apart_or_clear hlow hhigh hfirst hlast with hapart | ⟨p, q, hclear⟩
  · exact absurd hapart (not_apart hd hc' hunits)
  · exact (eq_or_close hclear hm hn hd hd' hc hc' hunits).imp eq_of_units id

/-- A decimal with a short coefficient is equal to a given midpoint, or further away from it than
reading can be off, or one of those that are close to a midpoint. -/
theorem eq_or_far_or_close (hd : 0 < d) (hdlt : d < longCoefficient) (hc : 0 < c)
    (hclt : c < 2 ^ 25) (hlow : -53 ≤ e) (hhigh : e ≤ 38) (j : Int) :
    (d : ℚ) * 10 ^ e = c * 2 ^ j ∨
      d * 10 ^ e * Double.tolerance < |(d : ℚ) * 10 ^ e - c * 2 ^ j| ∨
        ⟨d, e⟩ ∈ hard := by
  by_cases hnear : |(d : ℚ) * 10 ^ e - c * 2 ^ j| ≤ d * 10 ^ e * Double.tolerance
  · -- both coefficients are doubled until they fill their ranges
    obtain ⟨a, ha, ha'⟩ := exists_scale hd hdlt
    obtain ⟨b, hb, hb'⟩ := exists_scale hc hclt
    have hpow : (0 : ℚ) < 2 ^ a := by positivity
    have hd2 : ((d * 2 ^ a : ℕ) : ℚ) * 10 ^ e = d * 10 ^ e * 2 ^ a := by
      push_cast
      ring
    have hc2 : ((c * 2 ^ b : ℕ) : ℚ) * 2 ^ (j - b + a) = c * 2 ^ j * 2 ^ a := by
      rw [zpow_add₀ (by norm_num), zpow_sub₀ (by norm_num), zpow_natCast, zpow_natCast]
      push_cast
      field_simp
    have hscaled : |((d * 2 ^ a : ℕ) : ℚ) * 10 ^ e - (c * 2 ^ b : ℕ) * 2 ^ (j - b + a)| ≤
        (d * 2 ^ a : ℕ) * 10 ^ e * Double.tolerance := by
      rw [hd2, hc2, ← sub_mul, abs_mul, abs_of_pos hpow]
      calc |(d : ℚ) * 10 ^ e - c * 2 ^ j| * 2 ^ a ≤ d * 10 ^ e * Double.tolerance * 2 ^ a := by
            gcongr
        _ = d * 10 ^ e * 2 ^ a * Double.tolerance := by ring
    rcases eq_or_close_of_near ha ha' hb hb' hlow hhigh hscaled with heq | hclose
    · rw [hd2, hc2] at heq
      exact .inl (mul_right_cancel₀ hpow.ne' heq)
    · exact .inr (.inr (mem_hard_of_close hclose))
  · exact .inr (.inl (not_le.mp hnear))

end Separation

end Statechart
