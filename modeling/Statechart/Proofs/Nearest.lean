import Mathlib
import Statechart.Rounding

/-! Rounding to nearest, as a statement about rational numbers: which of them are rounded to a given
member of a format, and how far off a rounded number can be. -/

namespace Statechart

def Binary.value (b : Binary) : ℚ := b.coefficient * 2 ^ b.exponent

theorem Binary.value_nonneg (b : Binary) : 0 ≤ b.value := by
  rw [Binary.value]
  positivity

theorem inUnits_pos {base den : Nat} (hb : 0 < base) (hd : 0 < den) (k : Int) (num : Nat) :
    0 < (inUnits base k num den).2 := Nat.mul_pos hd (Nat.pow_pos hb)

theorem inUnits_ratio {base : Nat} (hb : 0 < base) (k : Int) (num den : Nat) :
    ((inUnits base k num den).1 : ℚ) / (inUnits base k num den).2 = num / den / base ^ k := by
  have hbase : (base : ℚ) ≠ 0 := by exact_mod_cast hb.ne'
  simp only [inUnits, Nat.cast_mul, Nat.cast_pow]
  rcases Int.le_total 0 k with hk | hk
  · have hneg : (-k).toNat = 0 := by omega
    have hpos : ((k.toNat : ℕ) : ℤ) = k := by omega
    rw [hneg, ← zpow_natCast (base : ℚ) k.toNat, hpos, pow_zero, mul_one, div_div]
  · have hpos : k.toNat = 0 := by omega
    have hneg : (((-k).toNat : ℕ) : ℤ) = -k := by omega
    rw [hpos, ← zpow_natCast (base : ℚ) (-k).toNat, hneg, pow_zero, mul_one, zpow_neg]
    field_simp

theorem Binary.ratio_snd_pos (b : Binary) : 0 < b.ratio.2 := Nat.pow_pos (by decide)

theorem Binary.ratio_eq (b : Binary) : (b.ratio.1 : ℚ) / b.ratio.2 = b.value := by
  have hunits := inUnits_ratio (by decide : 0 < 2) (-b.exponent) b.coefficient 1
  simpa [inUnits, Binary.ratio, Binary.value] using hunits

theorem nearestEven_eq_of_le {num den c : Nat} (hd : 0 < den)
    (hlow : 2 * (c * den) ≤ 2 * num + den) (hhigh : 2 * num ≤ 2 * (c * den) + den)
    (htie : 2 * (c * den) = 2 * num + den ∨ 2 * num = 2 * (c * den) + den → c % 2 = 0) :
    nearestEven num den = c := by
  have hdiv := Nat.div_add_mod num den
  have hmod := Nat.mod_lt num hd
  have hcomm : den * (num / den) = num / den * den := Nat.mul_comm _ _
  have hge : num / den < c + 1 := by
    refine Nat.lt_of_mul_lt_mul_right (a := den) ?_
    rw [Nat.add_mul]
    omega
  have hle : c < num / den + 2 := by
    refine Nat.lt_of_mul_lt_mul_right (a := den) ?_
    rw [Nat.add_mul]
    omega
  simp only [nearestEven]
  rcases Nat.lt_or_ge (num / den) c with hc | hc
  · obtain rfl : c = num / den + 1 := by omega
    rw [Nat.add_mul] at hlow hhigh htie
    split
    · omega
    · split
      · rfl
      · have heven := htie (by omega)
        omega
  · obtain rfl : c = num / den := by omega
    split
    · rfl
    · split
      · omega
      · have heven := htie (by omega)
        omega

theorem nearestEven_bounds (num : Nat) {den : Nat} (hd : 0 < den) :
    2 * (nearestEven num den * den) ≤ 2 * num + den ∧
      2 * num ≤ 2 * (nearestEven num den * den) + den := by
  have hdiv := Nat.div_add_mod num den
  have hmod := Nat.mod_lt num hd
  have hcomm : den * (num / den) = num / den * den := Nat.mul_comm _ _
  have hparity : num / den % 2 = 0 ∨ num / den % 2 = 1 := Nat.mod_two_eq_zero_or_one _
  simp only [nearestEven]
  split
  · omega
  · split
    · rw [Nat.add_mul]
      omega
    · rw [Nat.add_mul]
      rcases hparity with h | h
      · rw [h]
        omega
      · rw [h]
        omega

theorem nearestEven_near (num : Nat) {den : Nat} (hd : 0 < den) :
    |(nearestEven num den : ℚ) - num / den| ≤ 1 / 2 := by
  have hdq : (0 : ℚ) < den := by exact_mod_cast hd
  obtain ⟨hlow, hhigh⟩ := nearestEven_bounds num hd
  have hlowq : (2 : ℚ) * (nearestEven num den * den) ≤ 2 * num + den := by exact_mod_cast hlow
  have hhighq : (2 : ℚ) * num ≤ 2 * (nearestEven num den * den) + den := by exact_mod_cast hhigh
  have hle : (nearestEven num den : ℚ) ≤ num / den + 1 / 2 := by
    rw [← sub_le_iff_le_add, le_div_iff₀ hdq]
    linarith
  have hge : (num : ℚ) / den ≤ nearestEven num den + 1 / 2 := by
    rw [div_le_iff₀ hdq]
    linarith
  rw [abs_le]
  constructor <;> linarith

theorem nearestEven_tie {num den : Nat} (hd : 0 < den)
    (h : 2 * (nearestEven num den * den) = 2 * num + den ∨
      2 * num = 2 * (nearestEven num den * den) + den) : nearestEven num den % 2 = 0 := by
  have hdiv := Nat.div_add_mod num den
  have hmod := Nat.mod_lt num hd
  have hcomm : den * (num / den) = num / den * den := Nat.mul_comm _ _
  by_cases hlow : 2 * (num % den) < den
  · simp only [nearestEven, if_pos hlow] at h
    omega
  · by_cases hhigh : den < 2 * (num % den)
    · simp only [nearestEven, if_neg hlow, if_pos hhigh, Nat.add_mul] at h
      omega
    · simp only [nearestEven, if_neg hlow, if_neg hhigh]
      omega

theorem le_nearestEven {num den c : Nat} (hd : 0 < den) (h : c * den ≤ num) :
    c ≤ nearestEven num den := by
  have hbounds := (nearestEven_bounds num hd).2
  have hlt : c < nearestEven num den + 1 := by
    refine Nat.lt_of_mul_lt_mul_right (a := den) ?_
    rw [Nat.add_mul]
    omega
  omega

theorem nearestEven_le {num den c : Nat} (hd : 0 < den) (h : num ≤ c * den) :
    nearestEven num den ≤ c := by
  have hbounds := (nearestEven_bounds num hd).1
  have hlt : nearestEven num den < c + 1 := by
    refine Nat.lt_of_mul_lt_mul_right (a := den) ?_
    rw [Nat.add_mul]
    omega
  omega

/-- No natural number is nearer, and only an even one is as near as another. -/
theorem nearestEven_nearest (num : Nat) {den : Nat} (hd : 0 < den) (n : Nat) :
    |(nearestEven num den : ℚ) - num / den| ≤ |(n : ℚ) - num / den| ∧
      (|(nearestEven num den : ℚ) - num / den| = |(n : ℚ) - num / den| →
        n = nearestEven num den ∨ nearestEven num den % 2 = 0) := by
  have hnear := nearestEven_near num hd
  rcases eq_or_ne n (nearestEven num den) with rfl | hne
  · exact ⟨le_rfl, fun _ => .inl rfl⟩
  have hapart : (1 : ℚ) ≤ |(n : ℚ) - nearestEven num den| := by
    have hapart : 1 ≤ |(n : ℤ) - nearestEven num den| := Int.one_le_abs (by omega)
    exact_mod_cast hapart
  have htriangle := abs_sub_le (n : ℚ) (num / den) (nearestEven num den)
  rw [abs_sub_comm ((num : ℚ) / den) (nearestEven num den)] at htriangle
  refine ⟨by linarith, fun heq => .inr ?_⟩
  have hhalf : |(nearestEven num den : ℚ) - num / den| = 1 / 2 := by linarith
  have hdq : (0 : ℚ) < den := by exact_mod_cast hd
  refine nearestEven_tie hd ?_
  rcases (abs_eq (by norm_num)).mp hhalf with h | h
  · have hbelow : (num : ℚ) / den = nearestEven num den - 1 / 2 := by linarith
    rw [div_eq_iff hdq.ne'] at hbelow
    have hq : (2 : ℚ) * (nearestEven num den * den) = 2 * num + den := by linarith
    exact .inl (by exact_mod_cast hq)
  · have habove : (num : ℚ) / den = nearestEven num den + 1 / 2 := by linarith
    rw [div_eq_iff hdq.ne'] at habove
    have hq : (2 : ℚ) * num = 2 * (nearestEven num den * den) + den := by linarith
    exact .inr (by exact_mod_cast hq)

theorem nearestEven_eq {num den c : Nat} (hd : 0 < den) (hlow : (c : ℚ) - 1 / 2 ≤ num / den)
    (hhigh : (num : ℚ) / den ≤ c + 1 / 2)
    (htie : (num : ℚ) / den = c - 1 / 2 ∨ (num : ℚ) / den = c + 1 / 2 → c % 2 = 0) :
    nearestEven num den = c := by
  have hdq : (0 : ℚ) < den := by exact_mod_cast hd
  rw [le_div_iff₀ hdq] at hlow
  rw [div_le_iff₀ hdq] at hhigh
  rw [div_eq_iff hdq.ne', div_eq_iff hdq.ne'] at htie
  have hlowq : (2 : ℚ) * (c * den) ≤ 2 * num + den := by linarith
  have hhighq : (2 : ℚ) * num ≤ 2 * (c * den) + den := by linarith
  refine nearestEven_eq_of_le hd (by exact_mod_cast hlowq) (by exact_mod_cast hhighq) fun h => ?_
  refine htie (h.imp (fun h => ?_) fun h => ?_)
  · have hq : (2 : ℚ) * (c * den) = 2 * num + den := by exact_mod_cast h
    linarith
  · have hq : (2 : ℚ) * num = 2 * (c * den) + den := by exact_mod_cast h
    linarith

theorem two_zpow_log2_le {n : Nat} (hn : n ≠ 0) :
    (2 : ℚ) ^ (n.log2 : ℤ) ≤ n ∧ (n : ℚ) < 2 ^ ((n.log2 : ℤ) + 1) := by
  have hlow := Nat.log2_self_le hn
  have hhigh := Nat.lt_log2_self (n := n)
  constructor
  · rw [zpow_natCast]
    exact_mod_cast hlow
  · rw [← Nat.cast_succ, zpow_natCast]
    exact_mod_cast hhigh

theorem floorLog_bounds {num den : Nat} (hn : 0 < num) (hd : 0 < den) :
    (2 : ℚ) ^ floorLog num den ≤ num / den ∧ (num : ℚ) / den < 2 ^ (floorLog num den + 1) := by
  have hdq : (0 : ℚ) < den := by exact_mod_cast hd
  obtain ⟨hnlow, hnhigh⟩ := two_zpow_log2_le hn.ne'
  obtain ⟨hdlow, hdhigh⟩ := two_zpow_log2_le hd.ne'
  set k : ℤ := (num.log2 : ℤ) - den.log2 with hk
  have hpow : (0 : ℚ) < 2 ^ k := by positivity
  have hunits := inUnits_ratio (by decide : 0 < 2) k num den
  have hpos : (0 : ℚ) < (inUnits 2 k num den).2 := by
    exact_mod_cast inUnits_pos (by decide : 0 < 2) hd k num
  have hcompare : (inUnits 2 k num den).2 ≤ (inUnits 2 k num den).1 ↔ (2 : ℚ) ^ k ≤ num / den := by
    rw [← one_le_div₀ hpow]
    push_cast at hunits
    rw [← hunits, one_le_div₀ hpos, Nat.cast_le]
  have hup : (num : ℚ) / den < 2 ^ (k + 1) := by
    rw [div_lt_iff₀ hdq]
    calc (num : ℚ) < 2 ^ ((num.log2 : ℤ) + 1) := hnhigh
      _ = 2 ^ (k + 1) * 2 ^ (den.log2 : ℤ) := by rw [← zpow_add₀ (by norm_num)]; congr 1; omega
      _ ≤ 2 ^ (k + 1) * den := by gcongr
  have hdown : (2 : ℚ) ^ (k - 1) ≤ num / den := by
    rw [le_div_iff₀ hdq]
    calc (2 : ℚ) ^ (k - 1) * den ≤ 2 ^ (k - 1) * 2 ^ ((den.log2 : ℤ) + 1) := by gcongr
      _ = 2 ^ (num.log2 : ℤ) := by rw [← zpow_add₀ (by norm_num)]; congr 1; omega
      _ ≤ num := hnlow
  have hfloor : floorLog num den = if (2 : ℚ) ^ k ≤ num / den then k else k - 1 := by
    simp only [floorLog, ← hk, hcompare]
  rw [hfloor]
  split
  · rename_i h
    exact ⟨h, hup⟩
  · rename_i h
    rw [sub_add_cancel]
    exact ⟨hdown, not_le.mp h⟩

theorem floorLog_lt {num den : Nat} (hn : 0 < num) (hd : 0 < den) {k : ℤ}
    (h : (num : ℚ) / den < 2 ^ k) : floorLog num den < k :=
  (zpow_lt_zpow_iff_right₀ (by norm_num : (1 : ℚ) < 2)).mp
    ((floorLog_bounds hn hd).1.trans_lt h)

theorem le_floorLog {num den : Nat} (hn : 0 < num) (hd : 0 < den) {k : ℤ}
    (h : (2 : ℚ) ^ k ≤ num / den) : k ≤ floorLog num den := by
  have hlt := (zpow_lt_zpow_iff_right₀ (by norm_num : (1 : ℚ) < 2)).mp
    (h.trans_lt (floorLog_bounds hn hd).2)
  omega

namespace BinaryFormat

variable {f : BinaryFormat} {num den c : Nat} {k : Int}

/-- The exponent of the unit that a ratio is counted in. -/
def unit (f : BinaryFormat) (num den : Nat) : Int :=
  max f.lowest (floorLog num den + 1 - f.digits)

/-- A significand with one bit too many is a power of two, and loses that bit to the exponent. -/
def carried (f : BinaryFormat) (c : Nat) (k : Int) : Binary :=
  if c = 2 ^ f.digits then ⟨2 ^ (f.digits - 1), k + 1⟩ else ⟨c, k⟩

theorem value_carried (hf : 0 < f.digits) (c : Nat) (k : Int) :
    (f.carried c k).value = c * 2 ^ k := by
  rw [carried]
  split
  · rename_i hc
    have hsucc : f.digits - 1 + 1 = f.digits := by omega
    rw [Binary.value, hc, ← hsucc, zpow_add_one₀ (by norm_num)]
    push_cast
    ring
  · rfl

theorem exponent_carried_le (f : BinaryFormat) (c : Nat) (k : Int) :
    (f.carried c k).exponent ≤ k + 1 := by
  rw [carried]
  split
  · exact le_rfl
  · exact Int.le_add_one le_rfl

theorem num_pos (h : (0 : ℚ) < num / den) : 0 < num := by
  rcases Nat.eq_zero_or_pos num with rfl | hn
  · simp at h
  · exact hn

theorem unit_eq (hn : 0 < num) (hd : 0 < den) (hlow : f.lowest ≤ k)
    (hlt : (num : ℚ) / den < 2 ^ (k + f.digits))
    (hge : f.lowest < k → (2 : ℚ) ^ (k + f.digits - 1) ≤ num / den) : f.unit num den = k := by
  have hceil := floorLog_lt hn hd hlt
  rw [unit]
  rcases Int.lt_or_le f.lowest k with hk | hk
  · have hfloor := le_floorLog hn hd (hge hk)
    omega
  · omega

/-- The number of units that a ratio is rounded to. -/
def counted (f : BinaryFormat) (num den : Nat) : Nat :=
  nearestEven (inUnits 2 (f.unit num den) num den).1 (inUnits 2 (f.unit num den) num den).2

theorem round_of_pos (hn : 0 < num) : f.round num den =
    if (f.carried (f.counted num den) (f.unit num den)).exponent ≤ f.highest then
      some (f.carried (f.counted num den) (f.unit num den))
    else none := by
  rw [round, if_neg hn.ne']
  rfl

theorem round_eq_carried (hn : 0 < num) (hunit : f.unit num den = k)
    (hc : nearestEven (inUnits 2 k num den).1 (inUnits 2 k num den).2 = c)
    (hk : (f.carried c k).exponent ≤ f.highest) : f.round num den = some (f.carried c k) := by
  subst hunit
  subst hc
  exact (round_of_pos hn).trans (if_pos hk)

theorem eq_carried_of_round (hn : 0 < num) {b : Binary} (h : f.round num den = some b) :
    b = f.carried (f.counted num den) (f.unit num den) ∧ b.exponent ≤ f.highest := by
  rw [round_of_pos hn] at h
  split at h
  · rename_i hle
    obtain rfl := Option.some.inj h
    exact ⟨rfl, hle⟩
  · cases h

theorem lt_leading (hn : 0 < num) (hd : 0 < den) :
    (num : ℚ) / den < 2 ^ (f.unit num den + f.digits) :=
  (floorLog_bounds hn hd).2.trans_le
    (zpow_le_zpow_right₀ (by norm_num) (by simp only [unit]; omega))

theorem leading_le (hn : 0 < num) (hd : 0 < den) (h : f.lowest < f.unit num den) :
    (2 : ℚ) ^ (f.unit num den + f.digits - 1) ≤ num / den := by
  have hunit : f.unit num den + f.digits - 1 = floorLog num den := by
    simp only [unit] at h ⊢
    omega
  rw [hunit]
  exact (floorLog_bounds hn hd).1

/-- A ratio is rounded to the number of units that is at most half a unit away. -/
theorem round_eq_of_near (hd : 0 < den) (hn : 0 < num) (hunit : f.unit num den = k)
    (hlow : (c : ℚ) * 2 ^ k ≤ num / den + 2 ^ k / 2)
    (hhigh : (num : ℚ) / den ≤ c * 2 ^ k + 2 ^ k / 2)
    (htie : (c : ℚ) * 2 ^ k = num / den + 2 ^ k / 2 ∨ (num : ℚ) / den = c * 2 ^ k + 2 ^ k / 2 →
      c % 2 = 0)
    (hk : (f.carried c k).exponent ≤ f.highest) : f.round num den = some (f.carried c k) := by
  have hpos : (0 : ℚ) < 2 ^ k := by positivity
  have hratio := inUnits_ratio (by decide : 0 < 2) k num den
  push_cast at hratio
  refine round_eq_carried hn hunit (nearestEven_eq (inUnits_pos (by decide) hd k num) ?_ ?_ ?_) hk
  · rw [hratio, le_div_iff₀ hpos]
    linarith
  · rw [hratio, div_le_iff₀ hpos]
    linarith
  · rw [hratio, div_eq_iff hpos.ne', div_eq_iff hpos.ne']
    exact fun h => htie (h.imp (fun h => by linarith) fun h => by linarith)

theorem round_exact (hf : 0 < f.digits) (hd : 0 < den) {m : Nat} {j : Int} (hm : 0 < m)
    (hlt : m < 2 ^ f.digits) (hlow : f.lowest ≤ j) (hhigh : j < f.highest)
    (h : (num : ℚ) / den = m * 2 ^ j) : ∃ b, f.round num den = some b ∧ b.value = m * 2 ^ j := by
  have hmq : (0 : ℚ) < m := by exact_mod_cast hm
  have hn : 0 < num := num_pos (show (0 : ℚ) < num / den by rw [h]; positivity)
  have hfloor : floorLog num den < j + f.digits := by
    refine floorLog_lt hn hd ?_
    have hltq : (m : ℚ) < 2 ^ (f.digits : ℤ) := by
      rw [zpow_natCast]
      exact_mod_cast hlt
    rw [h, zpow_add₀ (by norm_num), mul_comm]
    gcongr
  have hunit : f.unit num den ≤ j := max_le hlow (by omega)
  generalize hu : f.unit num den = u at hunit
  obtain ⟨n, rfl⟩ : ∃ n : Nat, j = u + n := ⟨(j - u).toNat, by omega⟩
  have hvalue : ((m * 2 ^ n : Nat) : ℚ) * 2 ^ u = m * 2 ^ (u + n) := by
    rw [zpow_add₀ (by norm_num), zpow_natCast]
    push_cast
    ring
  have hhalf : (0 : ℚ) < 2 ^ u / 2 := by positivity
  have hexponent := exponent_carried_le f (m * 2 ^ n) u
  rw [← hvalue] at h
  refine ⟨f.carried (m * 2 ^ n) u, round_eq_of_near hd hn hu (by linarith) (by linarith)
    (fun htie => ?_) (by omega), ?_⟩
  · exfalso
    rcases htie with htie | htie <;> linarith
  · rw [value_carried hf, hvalue]

/-- A normal ratio is rounded by at most half a unit in its last place. -/
theorem round_near (hf : 0 < f.digits) (hd : 0 < den)
    (hlow : (2 : ℚ) ^ (f.lowest + f.digits - 1) ≤ num / den)
    (hhigh : (num : ℚ) / den < 2 ^ (f.highest + f.digits - 1)) :
    ∃ b, f.round num den = some b ∧ |b.value - num / den| ≤ num / den / 2 ^ f.digits := by
  have hn : 0 < num := num_pos (lt_of_lt_of_le (by positivity) hlow)
  have hfloor := le_floorLog hn hd hlow
  have hceil := floorLog_lt hn hd hhigh
  have hbounds := (floorLog_bounds hn hd).1
  have hunit : f.unit num den = floorLog num den + 1 - f.digits := max_eq_right (by omega)
  generalize hu : f.unit num den = u at hunit
  have hratio := inUnits_ratio (by decide : 0 < 2) u num den
  have hnear := nearestEven_near (inUnits 2 u num den).1
    (inUnits_pos (by decide : 0 < 2) hd u num)
  push_cast at hratio
  rw [hratio] at hnear
  generalize hc : nearestEven (inUnits 2 u num den).1 (inUnits 2 u num den).2 = c at hnear
  have hexponent := exponent_carried_le f c u
  refine ⟨_, round_eq_carried hn hu hc (by omega), ?_⟩
  have hpow : (0 : ℚ) < 2 ^ u := by positivity
  have hscale : (c : ℚ) * 2 ^ u - num / den = (c - num / den / 2 ^ u) * 2 ^ u := by
    rw [sub_mul, div_mul_cancel₀ _ hpow.ne']
  have hhalf : (2 : ℚ) ^ u / 2 = 2 ^ floorLog num den / 2 ^ f.digits := by
    have hlog : floorLog num den = u + f.digits - 1 := by omega
    rw [hlog, zpow_sub_one₀ (by norm_num), zpow_add₀ (by norm_num), zpow_natCast]
    field_simp
  rw [value_carried hf, hscale, abs_mul, abs_of_pos hpow]
  calc |(c : ℚ) - num / den / 2 ^ u| * 2 ^ u ≤ 1 / 2 * 2 ^ u := by gcongr
    _ = 2 ^ floorLog num den / 2 ^ f.digits := by rw [← hhalf]; ring
    _ ≤ num / den / 2 ^ f.digits := by gcongr

theorem two_zpow_sub_one (k : Int) : (2 : ℚ) ^ k = 2 * 2 ^ (k - 1) := by
  rw [zpow_sub_one₀ (by norm_num)]
  ring

theorem two_pow_digits (hf : 0 < f.digits) : 2 ^ f.digits = 2 * 2 ^ (f.digits - 1) := by
  rw [← Nat.pow_succ', Nat.succ_eq_add_one, Nat.sub_add_cancel hf]

theorem leading_bit (hf : 0 < f.digits) (k : Int) :
    (2 : ℚ) ^ (k + f.digits - 1) = ((2 ^ (f.digits - 1) : Nat) : ℚ) * 2 ^ k := by
  have hsplit : k + f.digits - 1 = ((f.digits - 1 : ℕ) : ℤ) + k := by omega
  rw [hsplit, zpow_add₀ (by norm_num), zpow_natCast]
  push_cast
  rfl

/-- Just below a power of two the unit is half as large, and the carry doubles it again. -/
theorem round_below_power (hf : 0 < f.digits) (hd : 0 < den) (hlow : f.lowest < k)
    (hhigh : k ≤ f.highest) (hlt : (num : ℚ) / den < ((2 ^ (f.digits - 1) : Nat) : ℚ) * 2 ^ k)
    (hge : ((2 ^ (f.digits - 1) : Nat) : ℚ) * 2 ^ k ≤ num / den + 2 ^ (k - 2)) :
    f.round num den = some ⟨2 ^ (f.digits - 1), k⟩ := by
  have hpower : (1 : ℚ) ≤ ((2 ^ (f.digits - 1) : Nat) : ℚ) := by
    exact_mod_cast Nat.one_le_two_pow
  have hunits := two_zpow_sub_one k
  have hquarters := two_zpow_sub_one (k - 1)
  rw [show k - 1 - 1 = k - 2 by omega] at hquarters
  have hquarter : (0 : ℚ) < 2 ^ (k - 2) := by positivity
  generalize hc : 2 ^ (f.digits - 1) = c at hlt hge hpower ⊢
  rw [hunits, hquarters] at hlt hge
  have hn : 0 < num := num_pos (show (0 : ℚ) < num / den by nlinarith)
  have hunit : f.unit num den = k - 1 := by
    refine unit_eq hn hd (by omega) ?_ fun _ => ?_
    · have hsame : k - 1 + f.digits = k + f.digits - 1 := by omega
      rw [hsame, leading_bit hf, hc, hunits, hquarters]
      exact hlt
    · rw [leading_bit hf, hc, hquarters]
      nlinarith
  have hcarried : f.carried (2 * c) (k - 1) = ⟨c, k⟩ := by
    have hfull : 2 * c = 2 ^ f.digits := by rw [two_pow_digits hf, hc]
    rw [carried, if_pos hfull, hc, sub_add_cancel]
  rw [← hcarried]
  refine round_eq_of_near hd hn hunit ?_ ?_ (fun _ => by omega) (by rw [hcarried]; exact hhigh)
  · rw [hquarters]
    push_cast
    linarith
  · rw [hquarters]
    push_cast
    linarith

/-- The ratios from `low` to `high` are rounded to a given member, the bounds if its significand is
even. Below a power of two the next member is only half as far away. -/
theorem round_eq (hf : 0 < f.digits) (hd : 0 < den) {g : Nat} (hc : 0 < c)
    (hlt : c < 2 ^ f.digits) (hlow : f.lowest ≤ k) (hhigh : k ≤ f.highest)
    (hnormal : 2 ^ (f.digits - 1) ≤ c ∨ k = f.lowest)
    (hg : g = if c = 2 ^ (f.digits - 1) ∧ f.lowest < k then 1 else 2)
    (hge : ((4 * c - g : Nat) : ℚ) * 2 ^ (k - 2) ≤ num / den)
    (hle : (num : ℚ) / den ≤ (4 * c + 2 : Nat) * 2 ^ (k - 2))
    (htie : c % 2 ≠ 0 → ((4 * c - g : Nat) : ℚ) * 2 ^ (k - 2) < num / den ∧
      (num : ℚ) / den < (4 * c + 2 : Nat) * 2 ^ (k - 2)) :
    f.round num den = some ⟨c, k⟩ := by
  have hg2 : g ≤ 2 := by
    rw [hg]
    split <;> omega
  have hcq : (1 : ℚ) ≤ c := by exact_mod_cast hc
  have hgq : (g : ℚ) ≤ 2 := by exact_mod_cast hg2
  have hquarter : (0 : ℚ) < 2 ^ (k - 2) := by positivity
  have hfull : (2 : ℚ) ^ k = 4 * 2 ^ (k - 2) := by
    rw [two_zpow_sub_one k, two_zpow_sub_one (k - 1), show k - 1 - 1 = k - 2 by omega]
    ring
  rw [Nat.cast_sub (by omega)] at hge htie
  push_cast at hge hle htie
  have hn : 0 < num := num_pos (show (0 : ℚ) < num / den by nlinarith)
  by_cases hbelow : f.lowest < k ∧ (num : ℚ) / den < ((2 ^ (f.digits - 1) : Nat) : ℚ) * 2 ^ k
  · obtain ⟨hk, hless⟩ := hbelow
    have hpower : c = 2 ^ (f.digits - 1) := by
      by_contra hne
      have hlarge : ((2 ^ (f.digits - 1) : Nat) : ℚ) + 1 ≤ c := by
        exact_mod_cast (by omega : 2 ^ (f.digits - 1) + 1 ≤ c)
      nlinarith
    rw [if_pos ⟨hpower, hk⟩] at hg
    rw [hg] at hge
    have hround := round_below_power hf hd hk hhigh hless
    rw [← hpower] at hround
    refine hround ?_
    rw [hfull]
    push_cast at hge
    linarith
  · have hunit : f.unit num den = k := by
      refine unit_eq hn hd hlow ?_ fun hk => ?_
      · have hltq : (c : ℚ) + 1 ≤ 2 ^ f.digits := by exact_mod_cast hlt
        rw [zpow_add₀ (by norm_num), zpow_natCast, hfull]
        nlinarith
      · rw [leading_bit hf]
        exact not_lt.mp fun h => hbelow ⟨hk, h⟩
    have hcarried : f.carried c k = ⟨c, k⟩ := if_neg hlt.ne
    rw [← hcarried]
    refine round_eq_of_near hd hn hunit ?_ ?_ (fun heq => ?_) (by rw [hcarried]; exact hhigh)
    · rw [hfull]
      nlinarith
    · rw [hfull]
      linarith
    · by_contra hodd
      obtain ⟨hgt, hlt⟩ := htie hodd
      rw [hfull] at heq
      rcases heq with heq | heq <;> nlinarith

/-- A binary with few enough digits and no unit below the lowest. It may be above the highest. -/
structure Holds (f : BinaryFormat) (m : Binary) : Prop where
  coefficient_lt : m.coefficient < 2 ^ f.digits
  lowest_le : f.lowest ≤ m.exponent

theorem counted_le (hn : 0 < num) (hd : 0 < den) : f.counted num den ≤ 2 ^ f.digits := by
  refine nearestEven_le (inUnits_pos (by decide) hd _ num) ?_
  have hpos : (0 : ℚ) < (inUnits 2 (f.unit num den) num den).2 := by
    exact_mod_cast inUnits_pos (by decide) hd _ num
  have hratio := inUnits_ratio (by decide : 0 < 2) (f.unit num den) num den
  have hlt := lt_leading (f := f) hn hd
  push_cast at hratio
  rw [zpow_add₀ (by norm_num), zpow_natCast, mul_comm, ← div_lt_iff₀ (by positivity), ← hratio,
    div_lt_iff₀ hpos] at hlt
  exact_mod_cast hlt.le

theorem le_counted (hf : 0 < f.digits) (hn : 0 < num) (hd : 0 < den)
    (h : f.lowest < f.unit num den) : 2 ^ (f.digits - 1) ≤ f.counted num den := by
  refine le_nearestEven (inUnits_pos (by decide) hd _ num) ?_
  have hpos : (0 : ℚ) < (inUnits 2 (f.unit num den) num den).2 := by
    exact_mod_cast inUnits_pos (by decide) hd _ num
  have hratio := inUnits_ratio (by decide : 0 < 2) (f.unit num den) num den
  have hle := leading_le hn hd h
  push_cast at hratio
  rw [leading_bit hf, ← le_div_iff₀ (by positivity), ← hratio, le_div_iff₀ hpos] at hle
  exact_mod_cast hle

/-- What a ratio is rounded to is a member of the format, in its normal form. -/
theorem round_normal (hf : 0 < f.digits) (hd : 0 < den) {b : Binary}
    (h : f.round num den = some b) : f.Holds b ∧
      (2 ^ (f.digits - 1) ≤ b.coefficient ∨ b.exponent = f.lowest) := by
  rcases Nat.eq_zero_or_pos num with rfl | hn
  · obtain rfl : (⟨0, f.lowest⟩ : Binary) = b := by simpa [round] using h
    exact ⟨⟨by positivity, le_rfl⟩, .inr rfl⟩
  · obtain ⟨rfl, -⟩ := eq_carried_of_round hn h
    have hle := counted_le (f := f) hn hd
    have hlow : f.lowest ≤ f.unit num den := le_max_left _ _
    rw [carried]
    split
    · have hlt : 2 ^ (f.digits - 1) < 2 ^ f.digits :=
        Nat.pow_lt_pow_right (by decide) (Nat.sub_lt hf one_pos)
      exact ⟨⟨hlt, by simp only; omega⟩, .inl le_rfl⟩
    · rename_i hne
      refine ⟨⟨lt_of_le_of_ne hle hne, hlow⟩, ?_⟩
      rcases hlow.lt_or_eq with hlt | heq
      · exact .inl (le_counted hf hn hd hlt)
      · exact .inr heq.symm

/-- What a ratio is rounded to, counted in the unit that it is rounded in. -/
theorem value_of_round (hf : 0 < f.digits) (hn : 0 < num) {b : Binary}
    (h : f.round num den = some b) : b.value = f.counted num den * 2 ^ f.unit num den := by
  rw [(eq_carried_of_round hn h).1, value_carried hf]

/-- Among the multiples of its unit, a ratio is rounded to the nearest. -/
theorem round_nearest_multiple (hf : 1 < f.digits) (hn : 0 < num) (hd : 0 < den) {b : Binary}
    (h : f.round num den = some b) (n : Nat) :
    |b.value - num / den| ≤ |(n : ℚ) * 2 ^ f.unit num den - num / den| ∧
      (|b.value - num / den| = |(n : ℚ) * 2 ^ f.unit num den - num / den| →
        (n : ℚ) * 2 ^ f.unit num den = b.value ∨ b.coefficient % 2 = 0) := by
  have hpow : (0 : ℚ) < 2 ^ f.unit num den := by positivity
  have hscale (c : Nat) : |(c : ℚ) * 2 ^ f.unit num den - num / den| =
      |(c : ℚ) - num / den / 2 ^ f.unit num den| * 2 ^ f.unit num den := by
    rw [← abs_of_pos hpow, ← abs_mul, abs_of_pos hpow, sub_mul, div_mul_cancel₀ _ hpow.ne']
  have hratio := inUnits_ratio (by decide : 0 < 2) (f.unit num den) num den
  push_cast at hratio
  have hnearest := nearestEven_nearest (inUnits 2 (f.unit num den) num den).1
    (inUnits_pos (by decide : 0 < 2) hd (f.unit num den) num) n
  rw [hratio] at hnearest
  rw [value_of_round (by omega) hn h, hscale, hscale]
  refine ⟨mul_le_mul_of_nonneg_right hnearest.1 hpow.le, fun heq => ?_⟩
  rcases hnearest.2 (mul_right_cancel₀ hpow.ne' heq) with hsame | heven
  · exact .inl (by rw [hsame]; rfl)
  · refine .inr ?_
    rw [(eq_carried_of_round hn h).1, carried]
    split
    · obtain ⟨k, hk⟩ : ∃ k, f.digits - 1 = k + 1 := ⟨f.digits - 2, by omega⟩
      simp only [hk, Nat.pow_succ]
      omega
    · exact heven

/-- No member of the format is nearer to a ratio than what it is rounded to, and one that is as near
is passed over for an even one. -/
theorem round_nearest (hf : 1 < f.digits) (hd : 0 < den) {b m : Binary}
    (h : f.round num den = some b) (hm : f.Holds m) :
    |b.value - num / den| ≤ |m.value - num / den| ∧
      (|b.value - num / den| = |m.value - num / den| →
        m.value = b.value ∨ b.coefficient % 2 = 0) := by
  rcases Nat.eq_zero_or_pos num with rfl | hn
  · obtain rfl : (⟨0, f.lowest⟩ : Binary) = b := by simpa [round] using h
    have hzero : (⟨0, f.lowest⟩ : Binary).value - ((0 : ℕ) : ℚ) / den = 0 := by simp [Binary.value]
    rw [hzero, abs_zero]
    exact ⟨abs_nonneg _, fun _ => .inr rfl⟩
  rcases Int.lt_or_le m.exponent (f.unit num den) with hlt | hle
  · -- A finer member lies below the leading power of two, which is itself a multiple of the unit.
    have hleading := leading_le (f := f) hn hd (hm.lowest_le.trans_lt hlt)
    have hbelow : m.value < 2 ^ (f.unit num den + f.digits - 1) := by
      have hcoefficient : (m.coefficient : ℚ) < 2 ^ (f.digits : ℤ) := by
        rw [zpow_natCast]
        exact_mod_cast hm.coefficient_lt
      calc m.value < 2 ^ (f.digits : ℤ) * 2 ^ m.exponent := by
            rw [Binary.value]
            gcongr
        _ = 2 ^ (f.digits + m.exponent) := (zpow_add₀ (by norm_num) _ _).symm
        _ ≤ 2 ^ (f.unit num den + f.digits - 1) :=
            zpow_le_zpow_right₀ (by norm_num) (by omega)
    have hnearest := (round_nearest_multiple hf hn hd h (2 ^ (f.digits - 1))).1
    rw [← leading_bit (by omega), abs_sub_comm (2 ^ (f.unit num den + f.digits - 1)),
      abs_of_nonneg (sub_nonneg.mpr hleading)] at hnearest
    have hfarther : |b.value - num / den| < |m.value - num / den| := by
      rw [abs_sub_comm m.value, abs_of_pos (show (0 : ℚ) < num / den - m.value by linarith)]
      linarith
    exact ⟨hfarther.le, fun heq => absurd heq hfarther.ne⟩
  · obtain ⟨i, hi⟩ : ∃ i : Nat, m.exponent = f.unit num den + i :=
      ⟨(m.exponent - f.unit num den).toNat, by omega⟩
    have hvalue : m.value = (m.coefficient * 2 ^ i : Nat) * 2 ^ f.unit num den := by
      rw [Binary.value, hi, zpow_add₀ (by norm_num), zpow_natCast]
      push_cast
      ring
    rw [hvalue]
    exact round_nearest_multiple hf hn hd h _

theorem exponent_le_of_round (hf : f.lowest ≤ f.highest) {b : Binary}
    (h : f.round num den = some b) : b.exponent ≤ f.highest := by
  rcases Nat.eq_zero_or_pos num with rfl | hn
  · obtain rfl : (⟨0, f.lowest⟩ : Binary) = b := by simpa [round] using h
    exact hf
  · exact (eq_carried_of_round hn h).2

/-- Far enough from the end of the range, every ratio is rounded to a member. -/
theorem exists_round (hf : f.lowest < f.highest) (hd : 0 < den)
    (h : (num : ℚ) / den < 2 ^ (f.highest + f.digits - 1)) :
    ∃ b, f.round num den = some b := by
  rcases Nat.eq_zero_or_pos num with rfl | hn
  · exact ⟨⟨0, f.lowest⟩, by simp [round]⟩
  · have hfloor := floorLog_lt hn hd h
    have hexponent := exponent_carried_le f (f.counted num den) (f.unit num den)
    have hle : (f.carried (f.counted num den) (f.unit num den)).exponent ≤ f.highest := by
      simp only [unit] at hexponent ⊢
      omega
    exact ⟨_, (round_of_pos hn).trans (if_pos hle)⟩

end BinaryFormat

end Statechart
