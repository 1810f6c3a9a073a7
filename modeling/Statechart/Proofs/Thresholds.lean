import Mathlib
import Statechart.Reference
import Statechart.Proofs.Shortness

/-! The numbers that integers are compared by. An integer becomes the single precision number
nearest to it, which is itself an integer, and the same one for all integers of at most 24 bits. -/

namespace Statechart

namespace Single

def signed (negative : Bool) (m : ℚ) : ℚ := if negative then -m else m

/-- The number that a finite pattern denotes. -/
def value (x : Single) : ℚ := signed x.isNegative x.magnitude.value

theorem abs_signed_sub (negative : Bool) (m a : ℚ) :
    |signed negative m - signed negative a| = |m - a| := by
  cases negative
  · rfl
  · simp only [signed, if_true]
    rw [← abs_neg, neg_sub, neg_sub_neg]

/-- Numbers of different signs are as far apart as their magnitudes together. -/
theorem abs_signed_sub_of_ne {s t : Bool} (hne : s ≠ t) {m a : ℚ} (hm : 0 ≤ m) (ha : 0 ≤ a) :
    |signed s m - signed t a| = m + a := by
  cases s <;> cases t <;> simp only [ne_eq, not_true_eq_false] at hne <;>
    simp only [signed, Bool.false_eq_true, if_false, if_true]
  · rw [sub_neg_eq_add, abs_of_nonneg (add_nonneg hm ha)]
  · rw [abs_of_nonpos (by linarith)]
    ring

theorem abs_sub_le_signed (s t : Bool) {m a : ℚ} (hm : 0 ≤ m) (ha : 0 ≤ a) :
    |m - a| ≤ |signed s m - signed t a| := by
  rcases eq_or_ne s t with rfl | hne
  · rw [abs_signed_sub]
  · rw [abs_signed_sub_of_ne hne hm ha, abs_le]
    constructor <;> linarith

theorem value_intCast (n : ℤ) : (n : ℚ) = signed (n < 0) (n.natAbs / (1 : ℕ)) := by
  have habs : ((n.natAbs : ℕ) : ℚ) = |(n : ℚ)| := by
    rw [← Int.cast_natCast, Int.natCast_natAbs, Int.cast_abs]
  rw [Nat.cast_one, div_one, habs, signed]
  rcases Int.lt_or_le n 0 with hn | hn
  · have hq : (n : ℚ) < 0 := by exact_mod_cast hn
    rw [if_pos (by simpa using hn), abs_of_neg hq, neg_neg]
  · have hq : (0 : ℚ) ≤ n := by exact_mod_cast hn
    rw [if_neg (by simpa using hn), abs_of_nonneg hq]

theorem fields_ofNat {negative : Bool} {s f : Nat} (hs : s < 2 ^ 8) (hf : f < 2 ^ 23) :
    (⟨UInt32.ofNat (signBit negative + s * 2 ^ 23 + f)⟩ : Single).isNegative = negative ∧
      (⟨UInt32.ofNat (signBit negative + s * 2 ^ 23 + f)⟩ : Single).scale = s ∧
      (⟨UInt32.ofNat (signBit negative + s * 2 ^ 23 + f)⟩ : Single).fraction = f := by
  have hbits : (UInt32.ofNat (signBit negative + s * 2 ^ 23 + f)).toNat =
      signBit negative + s * 2 ^ 23 + f := by
    refine UInt32.toNat_ofNat_of_lt' ?_
    cases negative <;>
      simp only [signBit, UInt32.size, Bool.false_eq_true, if_false, if_true] <;> omega
  simp only [isNegative, scale, fraction, hbits]
  cases negative
  · simp only [signBit, Bool.false_eq_true, if_false, decide_eq_false_iff_not]
    omega
  · simp only [signBit, if_true, decide_eq_true_eq]
    omega

theorem fields_ofMagnitude {b : Binary} (hb : BinaryFormat.single.Holds b)
    (hhigh : b.exponent ≤ 104) (hnormal : 2 ^ 23 ≤ b.coefficient ∨ b.exponent = -149)
    (negative : Bool) : (ofMagnitude negative (some b)).isNegative = negative ∧
      (ofMagnitude negative (some b)).isFinite = true ∧
      (ofMagnitude negative (some b)).magnitude = b := by
  have hlt : b.coefficient < 2 ^ 24 := hb.coefficient_lt
  have hlow : -149 ≤ b.exponent := hb.lowest_le
  rw [ofMagnitude]
  split
  · rename_i hsmall
    have hexponent : b.exponent = -149 := hnormal.resolve_left (by omega)
    have hfields := @fields_ofNat negative 0 b.coefficient (by decide) hsmall
    rw [Nat.zero_mul, Nat.add_zero] at hfields
    obtain ⟨hsign, hscale, hfraction⟩ := hfields
    refine ⟨hsign, by rw [isFinite, hscale]; rfl, ?_⟩
    rw [magnitude, if_pos hscale, hfraction, ← hexponent]
  · rename_i hlarge
    obtain ⟨hsign, hscale, hfraction⟩ :=
      @fields_ofNat negative (b.exponent + 150).toNat (b.coefficient - 2 ^ 23) (by omega) (by omega)
    have hnonzero : (b.exponent + 150).toNat ≠ 0 := by omega
    have hcoefficient : 2 ^ 23 + (b.coefficient - 2 ^ 23) = b.coefficient := by omega
    have hexponent : ((b.exponent + 150).toNat : ℤ) - 150 = b.exponent := by omega
    refine ⟨hsign, ?_, ?_⟩
    · simp only [isFinite, hscale, bne_iff_ne]
      omega
    · rw [magnitude, hscale, if_neg hnonzero, hfraction, hcoefficient, hexponent]

/-- A rounded ratio is held as it is, and its sign beside it. -/
theorem fields_ofRatio {num den : Nat} (hd : 0 < den) {b : Binary}
    (h : BinaryFormat.single.round num den = some b) (negative : Bool) :
    (ofRatio negative num den).isNegative = negative ∧
      (ofRatio negative num den).isFinite = true ∧ (ofRatio negative num den).magnitude = b := by
  obtain ⟨hb, hnormal⟩ := BinaryFormat.round_normal (by decide) hd h
  have hhigh : b.exponent ≤ 104 := BinaryFormat.exponent_le_of_round (by decide) h
  rw [ofRatio, h]
  exact fields_ofMagnitude hb hhigh hnormal negative

/-- No finite number is nearer, and one that is as near without being the same is passed over for an
even one. -/
structure NearestTo (x : Single) (q : ℚ) : Prop where
  isFinite : x.isFinite = true
  le : ∀ y : Single, y.isFinite = true → |x.value - q| ≤ |y.value - q|
  even : ∀ y : Single, y.isFinite = true → |x.value - q| = |y.value - q| →
    y.value = x.value ∨ x.magnitude.coefficient % 2 = 0

theorem holds_magnitude {x : Single} (h : x.isFinite = true) :
    BinaryFormat.single.Holds x.magnitude :=
  ⟨(magnitude_bounds h).1, (magnitude_bounds h).2.1⟩

theorem nearestTo_ofRatio (negative : Bool) {num den : Nat} (hd : 0 < den)
    (h : (num : ℚ) / den < 2 ^ (127 : ℤ)) :
    (ofRatio negative num den).NearestTo (signed negative (num / den)) := by
  obtain ⟨b, hb⟩ := BinaryFormat.exists_round (f := .single) (by decide) hd h
  obtain ⟨hsign, hfinite, hmagnitude⟩ := fields_ofRatio hd hb negative
  have hvalue : (ofRatio negative num den).value = signed negative b.value := by
    rw [value, hsign, hmagnitude]
  have hratio : (0 : ℚ) ≤ num / den := by positivity
  have hnearest (y : Single) (hy : y.isFinite = true) :=
    BinaryFormat.round_nearest (by decide) hd hb (holds_magnitude hy)
  have hapart (y : Single) := abs_sub_le_signed y.isNegative negative
    (show 0 ≤ y.magnitude.value from Binary.value_nonneg _) hratio
  refine ⟨hfinite, fun y hy => ?_, fun y hy heq => ?_⟩
  · rw [hvalue, abs_signed_sub]
    exact (hnearest y hy).1.trans (hapart y)
  · rw [hvalue, abs_signed_sub] at heq
    rw [hvalue, hmagnitude]
    rcases (hnearest y hy).2 (le_antisymm (hnearest y hy).1 (heq ▸ hapart y)) with hsame | heven
    · left
      rcases eq_or_ne y.isNegative negative with hsigns | hsigns
      · rw [value, hsigns, hsame]
      · -- A number as near as its own opposite is no nearer than zero, so it is zero.
        rw [value, abs_signed_sub_of_ne hsigns (Binary.value_nonneg _) hratio, hsame] at heq
        have hzero := (BinaryFormat.round_nearest (by decide) hd hb (m := ⟨0, -149⟩)
          ⟨by decide, by decide⟩).1
        have hempty : (⟨0, -149⟩ : Binary).value = 0 := by simp [Binary.value]
        rw [heq, hempty, zero_sub, abs_neg, abs_of_nonneg hratio] at hzero
        have hvanishes : b.value = 0 := le_antisymm (by linarith) b.value_nonneg
        rw [value, hsame, hvanishes]
        simp [signed]
    · exact .inr heven

theorem nearestTo_ofInt {n : ℤ} (h : n.natAbs ≤ 2 ^ 31) : (ofInt n).NearestTo n := by
  rw [value_intCast n]
  refine nearestTo_ofRatio _ one_pos ?_
  have hq : (n.natAbs : ℚ) ≤ 2 ^ 31 := by exact_mod_cast h
  rw [Nat.cast_one, div_one]
  exact hq.trans_lt (by norm_num)

theorem exists_value (m : ℤ) (k : Nat) (hm : m.natAbs < 2 ^ 24) (hk : k < 104) :
    ∃ y : Single, y.isFinite = true ∧ y.value = m * 2 ^ k := by
  have hd : 0 < (1 : ℕ) := one_pos
  have hround : ∃ b, BinaryFormat.single.round (m.natAbs * 2 ^ k) 1 = some b ∧
      b.value = m.natAbs * 2 ^ (k : ℤ) := by
    rcases Nat.eq_zero_or_pos m.natAbs with hzero | hpos
    · exact ⟨⟨0, -149⟩, by simp [hzero, BinaryFormat.round, BinaryFormat.single],
        by simp [hzero, Binary.value]⟩
    · refine BinaryFormat.round_exact (by decide) hd hpos hm (by simp [BinaryFormat.single])
        (by simp [BinaryFormat.single]; omega) ?_
      push_cast
      rw [div_one, zpow_natCast]
  obtain ⟨b, hb, hvalue⟩ := hround
  obtain ⟨hsign, hfinite, hmagnitude⟩ := fields_ofRatio hd hb (m < 0)
  refine ⟨_, hfinite, ?_⟩
  rw [value, hsign, hmagnitude, hvalue, zpow_natCast, value_intCast m, Nat.cast_one, div_one]
  cases decide (m < 0) <;> simp [signed]

/-- The number as a signed significand over its unit. -/
theorem value_eq_zpow (x : Single) : ∃ s : ℤ, s.natAbs = x.magnitude.coefficient ∧
    x.value = s * 2 ^ x.magnitude.exponent := by
  rcases hsign : x.isNegative
  · exact ⟨x.magnitude.coefficient, Int.natAbs_natCast _,
      by simp [value, hsign, signed, Binary.value]⟩
  · exact ⟨-x.magnitude.coefficient, by rw [Int.natAbs_neg, Int.natAbs_natCast],
      by simp [value, hsign, signed, Binary.value]⟩

/-- A number whose unit is no fraction is an integer, and one whose unit is a fraction is small. -/
theorem value_cases {x : Single} (h : x.isFinite = true) :
    (∃ m : ℤ, ∃ k : ℕ, m.natAbs < 2 ^ 24 ∧ x.value = (m * 2 ^ k : ℤ)) ∨ |x.value| < 2 ^ 24 := by
  have hlt := (magnitude_bounds h).1
  obtain ⟨s, hs, hvalue⟩ := value_eq_zpow x
  rcases Int.le_total 0 x.magnitude.exponent with hexponent | hexponent
  · refine .inl ⟨s, x.magnitude.exponent.toNat, by omega, ?_⟩
    obtain ⟨k, hk⟩ := Int.eq_ofNat_of_zero_le hexponent
    rw [hvalue, hk, zpow_natCast, Int.toNat_natCast]
    push_cast
    rfl
  · have hunit : (2 : ℚ) ^ x.magnitude.exponent ≤ 1 :=
      zpow_le_one_of_nonpos₀ (by norm_num) hexponent
    have hcoefficient : |(s : ℚ)| < 2 ^ 24 := by
      rw [← Int.cast_abs, Int.abs_eq_natAbs, hs]
      exact_mod_cast hlt
    right
    rw [hvalue, abs_mul, abs_of_pos (show (0 : ℚ) < 2 ^ x.magnitude.exponent by positivity)]
    exact (mul_le_of_le_one_right (abs_nonneg _) hunit).trans_lt hcoefficient

namespace NearestTo

variable {x : Single} {n : ℤ}

theorem value_eq {q : ℚ} (hx : x.NearestTo q) {y : Single} (hy : y.isFinite = true)
    (h : y.value = q) : x.value = q := by
  have hle := hx.le y hy
  rw [h, sub_self, abs_zero] at hle
  exact sub_eq_zero.mp (abs_nonpos_iff.mp hle)

end NearestTo

end Single

/-- An integer with at most 24 significant bits. -/
def HeldExactly (n : ℤ) : Prop := ∃ m : ℤ, ∃ k : ℕ, m.natAbs < 2 ^ 24 ∧ n = m * 2 ^ k

namespace HeldExactly

variable {n : ℤ}

theorem of_natAbs_le (h : n.natAbs ≤ 2 ^ 24) : HeldExactly n := by
  rcases h.lt_or_eq with hlt | heq
  · exact ⟨n, 0, hlt, by simp⟩
  · refine ⟨n / 2, 1, by omega, ?_⟩
    rw [pow_one]
    omega

theorem exists_value (h : HeldExactly n) (hn : n.natAbs ≤ 2 ^ 31) :
    ∃ y : Single, y.isFinite = true ∧ y.value = n := by
  obtain ⟨m, k, hm, rfl⟩ := h
  rcases Nat.eq_zero_or_pos m.natAbs with hzero | hpos
  · obtain rfl : m = 0 := Int.natAbs_eq_zero.mp hzero
    obtain ⟨y, hy, hvalue⟩ := Single.exists_value 0 0 (by decide) (by decide)
    exact ⟨y, hy, by simpa using hvalue⟩
  · have hpow : 2 ^ k ≤ 2 ^ 31 := by
      rw [Int.natAbs_mul, Int.natAbs_pow] at hn
      exact le_trans (Nat.le_mul_of_pos_left _ hpos) hn
    have hk : k ≤ 31 := (Nat.pow_le_pow_iff_right (by decide)).mp hpow
    obtain ⟨y, hy, hvalue⟩ := Single.exists_value m k hm (by omega)
    exact ⟨y, hy, by rw [hvalue]; push_cast; rfl⟩

/-- An integer that is the value of a number is held exactly: below its unit, it is small. -/
theorem of_value {y : Single} (hy : y.isFinite = true) (h : y.value = n) : HeldExactly n := by
  rcases Single.value_cases hy with ⟨m, k, hm, hvalue⟩ | hsmall
  · refine ⟨m, k, hm, ?_⟩
    rw [h] at hvalue
    exact_mod_cast hvalue
  · refine of_natAbs_le ?_
    rw [h, ← Int.cast_abs, Int.abs_eq_natAbs] at hsmall
    have hlt : n.natAbs < 2 ^ 24 := by exact_mod_cast hsmall
    exact hlt.le

end HeldExactly

namespace Single.NearestTo

variable {x : Single} {n t : ℤ}

theorem value_eq_of_held (hx : x.NearestTo n) (hn : n.natAbs ≤ 2 ^ 31) (h : HeldExactly n) :
    x.value = n := by
  obtain ⟨y, hy, hvalue⟩ := h.exists_value hn
  exact hx.value_eq hy hvalue

/-- The number nearest to an integer is an integer: a fraction is small, and small integers are held
exactly. -/
theorem exists_int (hx : x.NearestTo n) (hn : n.natAbs ≤ 2 ^ 31) : ∃ t : ℤ, x.value = t := by
  rcases Single.value_cases hx.isFinite with ⟨m, k, -, hvalue⟩ | hsmall
  · exact ⟨_, hvalue⟩
  rcases Nat.lt_or_ge (2 ^ 24) n.natAbs with hlarge | hheld
  · -- The power of two between a small number and a large integer is nearer to the integer.
    exfalso
    rw [abs_lt] at hsmall
    rcases Int.le_total 0 n with hsign | hsign
    · have hnq : (2 ^ 24 : ℚ) < n := by exact_mod_cast (by omega : (2 ^ 24 : ℤ) < n)
      obtain ⟨y, hy, hvalue⟩ :=
        (HeldExactly.of_natAbs_le (n := 2 ^ 24) (by decide)).exists_value (by decide)
      have hle := hx.le y hy
      push_cast at hvalue
      rw [hvalue, abs_of_neg (by linarith), abs_of_neg (by linarith)] at hle
      linarith
    · have hnq : (n : ℚ) < -2 ^ 24 := by exact_mod_cast (by omega : n < -2 ^ 24)
      obtain ⟨y, hy, hvalue⟩ :=
        (HeldExactly.of_natAbs_le (n := -2 ^ 24) (by decide)).exists_value (by decide)
      have hle := hx.le y hy
      push_cast at hvalue
      rw [hvalue, abs_of_pos (by linarith), abs_of_pos (by linarith)] at hle
      linarith
  · exact ⟨n, hx.value_eq_of_held hn (.of_natAbs_le hheld)⟩

theorem eq_iff_held (hx : x.NearestTo n) (hn : n.natAbs ≤ 2 ^ 31) (ht : x.value = t) :
    t = n ↔ HeldExactly n := by
  constructor
  · rintro rfl
    exact .of_value hx.isFinite ht
  · intro h
    have hvalue := hx.value_eq_of_held hn h
    rw [ht] at hvalue
    exact_mod_cast hvalue

end Single.NearestTo

/-- What a comparison asks of a number. The flags ask nothing of numbers. -/
def Comparison.Relates (p t : ℚ) : Comparison → Prop
  | .greater => t < p
  | .less => p < t
  | .equals => p = t
  | .differs => p ≠ t
  | .isTrue | .isFalse => False

namespace Condition

/-- A condition on the value of its own parameter, the threshold read as the number it denotes. -/
def HoldsIn (c : Condition) (values : String → ℚ) : Prop :=
  c.threshold.isFinite = true ∧ c.comparison.Relates (values c.parameter) c.threshold.value

/-- Over all values of integer parameters, a condition says just this of the one that is named. -/
def Asks (c : Condition) (name : String) (P : ℤ → Prop) : Prop :=
  ∀ values : String → Int32, c.HoldsIn (fun n => (values n).toInt) ↔ P (values name).toInt

theorem Asks.congr {c : Condition} {name : String} {P Q : ℤ → Prop} (h : c.Asks name P) :
    c.Asks name Q ↔ ∀ p : Int32, P p.toInt ↔ Q p.toInt :=
  ⟨fun h' p => (h fun _ => p).symm.trans (h' fun _ => p),
    fun h' values => (h values).trans (h' (values name))⟩

end Condition

theorem natAbs_toInt_le (v : Int32) : v.toInt.natAbs ≤ 2 ^ 31 := by
  have hlow := v.le_toInt
  have hhigh := v.toInt_lt
  omega

section Agreement

variable {v : Int32} {t : ℤ}

theorem forall_eq_iff : (∀ p : Int32, p.toInt = t ↔ p.toInt = v.toInt) ↔ t = v.toInt := by
  refine ⟨fun h => ((h v).mpr rfl).symm, ?_⟩
  rintro rfl _
  rfl

theorem forall_ne_iff : (∀ p : Int32, p.toInt ≠ t ↔ p.toInt ≠ v.toInt) ↔ t = v.toInt := by
  simp only [ne_eq, not_iff_not]
  exact forall_eq_iff

/-- Two thresholds are told apart by the smaller one or its successor, unless no integer is left
beyond them. -/
theorem forall_gt_iff (hlast : v = .maxValue → v.toInt ≤ t) :
    (∀ p : Int32, t < p.toInt ↔ v.toInt < p.toInt) ↔ t = v.toInt ∨ v = .maxValue := by
  have hlow := v.le_toInt
  constructor
  · intro h
    by_contra hne
    rw [not_or, ← Int32.toInt_inj, Int32.toInt_maxValue] at hne
    have hhigh := v.toInt_lt
    rcases lt_or_gt_of_ne hne.1 with hlt | hgt
    · exact (h v).mp hlt |>.false
    · have hnext : (Int32.ofInt (v.toInt + 1)).toInt = v.toInt + 1 :=
        Int32.toInt_ofInt_of_le (by omega) (by omega)
      have hbeyond := (h (.ofInt (v.toInt + 1))).mpr (by omega)
      omega
  · rintro (rfl | hv) p
    · rfl
    · have hlt := p.toInt_lt
      have hv' := hlast hv
      rw [hv, Int32.toInt_maxValue] at hv' ⊢
      omega

theorem forall_lt_iff (hfirst : v = .minValue → t = v.toInt) :
    (∀ p : Int32, p.toInt < t ↔ p.toInt < v.toInt) ↔ t = v.toInt := by
  constructor
  · intro h
    by_contra hne
    have hmin : v ≠ .minValue := fun hv => hne (hfirst hv)
    rw [ne_eq, ← Int32.toInt_inj, Int32.toInt_minValue] at hmin
    have hlow := v.le_toInt
    have hhigh := v.toInt_lt
    rcases lt_or_gt_of_ne hne with hlt | hgt
    · have hprevious : (Int32.ofInt (v.toInt - 1)).toInt = v.toInt - 1 :=
        Int32.toInt_ofInt_of_le (by omega) (by omega)
      have hbelow := (h (.ofInt (v.toInt - 1))).mpr (by omega)
      omega
    · exact (h v).mp hgt |>.false
  · rintro rfl _
    rfl

end Agreement

theorem value_ofInt_maxValue : (Single.ofInt Int32.maxValue.toInt).value = (2 ^ 31 : ℤ) := by
  have hsign : (Single.ofInt Int32.maxValue.toInt).isNegative = false := by decide
  have hmagnitude : (Single.ofInt Int32.maxValue.toInt).magnitude = ⟨2 ^ 23, 8⟩ := by decide
  rw [Single.value, hsign, hmagnitude]
  norm_num [Single.signed, Binary.value]

namespace Reference

/-- The conditions that an integer parameter makes, each with the relation it is named for. -/
def intConditions (r : Reference .int) : List ((Int32 → Condition) × (ℤ → ℤ → Prop)) :=
  [(r.equalsInt, fun p v => p = v), (r.differsFromInt, fun p v => p ≠ v),
    (r.exceedsInt, fun p v => v < p), (r.belowInt, fun p v => p < v)]

theorem asks_of_value (r : Reference .int) {v : Int32} {t : ℤ}
    (hfinite : (Single.ofInt v.toInt).isFinite = true) (ht : (Single.ofInt v.toInt).value = t) :
    ∀ make ∈ r.intConditions, (make.1 v).Asks r.name (make.2 · t) := by
  simp only [intConditions, List.forall_mem_cons, List.not_mem_nil, false_imp_iff, implies_true,
    and_true, Condition.Asks, Condition.HoldsIn, equalsInt, differsFromInt, exceedsInt, belowInt,
    condition, hfinite, ht, true_and, Comparison.Relates]
  exact ⟨fun _ => Int.cast_inj, fun _ => Int.cast_inj.not, fun _ => Int.cast_lt,
    fun _ => Int.cast_lt⟩

theorem agrees_iff (r : Reference .int) {v : Int32} {t : ℤ}
    (hx : (Single.ofInt v.toInt).NearestTo v.toInt) (ht : (Single.ofInt v.toInt).value = t) :
    ∀ make ∈ r.intConditions, (∀ p : Int32, make.2 p.toInt t ↔ make.2 p.toInt v.toInt) ↔
      HeldExactly v.toInt ∨ (v = .maxValue ∧ (make.1 v).comparison = .greater) := by
  have hheld := hx.eq_iff_held (natAbs_toInt_le v) ht
  have hlast : v = .maxValue → v.toInt ≤ t := by
    rintro rfl
    have hvalue := value_ofInt_maxValue
    rw [ht, Int.cast_inj] at hvalue
    rw [hvalue, Int32.toInt_maxValue]
    omega
  have hfirst : v = .minValue → t = v.toInt := by
    rintro rfl
    exact hheld.mpr ⟨-1, 31, by decide, by decide⟩
  simp only [intConditions, List.forall_mem_cons, List.not_mem_nil, false_imp_iff, implies_true,
    and_true]
  refine ⟨?_, ?_, ?_, ?_⟩
  · simpa [equalsInt, condition, hheld] using forall_eq_iff (v := v) (t := t)
  · simpa [differsFromInt, condition, hheld] using forall_ne_iff (v := v) (t := t)
  · simpa [exceedsInt, condition, hheld] using forall_gt_iff hlast
  · simpa [belowInt, condition, hheld] using forall_lt_iff hfirst

theorem threshold_of_mem (r : Reference .int) :
    ∀ make ∈ r.intConditions, ∀ v : Int32, (make.1 v).threshold = .ofInt v.toInt := by
  simp [intConditions, equalsInt, differsFromInt, exceedsInt, belowInt, condition]

/-- Integers that are held exactly are told apart by each of their conditions. -/
theorem condition_inj (r : Reference .int) {v w : Int32} (hv : HeldExactly v.toInt)
    (hw : HeldExactly w.toInt) : ∀ make ∈ r.intConditions, make.1 v = make.1 w ↔ v = w := by
  intro make hmake
  refine ⟨fun h => ?_, fun h => congrArg make.1 h⟩
  have hthreshold := congrArg (fun c => c.threshold.value) h
  simp only [r.threshold_of_mem make hmake] at hthreshold
  rw [(Single.nearestTo_ofInt (natAbs_toInt_le v)).value_eq_of_held (natAbs_toInt_le v) hv,
    (Single.nearestTo_ofInt (natAbs_toInt_le w)).value_eq_of_held (natAbs_toInt_le w) hw,
    Int.cast_inj, Int32.toInt_inj] at hthreshold
  exact hthreshold

/-- An integer is compared by the number nearest to it, an integer too. They are the same if 24 bits
hold it, and otherwise the conditions say something else of some value; only above the greatest
integer is there none to tell. -/
theorem compares_with_nearest (r : Reference .int) (g : ReferenceGroup .int) (v : Int32) :
    ∃ t : ℤ, (Single.ofInt v.toInt).NearestTo v.toInt ∧ (Single.ofInt v.toInt).value = t ∧
      (∀ make ∈ r.intConditions, (make.1 v).Asks r.name (make.2 · t)) ∧
      List.Forall₂ (fun c m => c.Asks m.name (· = t)) (g.equalInt v) g.members ∧
      (t = v.toInt ↔ HeldExactly v.toInt) ∧
      (v.toInt.natAbs ≤ 2 ^ 24 → HeldExactly v.toInt) ∧
      (∀ make ∈ r.intConditions, (make.1 v).Asks r.name (make.2 · v.toInt) ↔
        HeldExactly v.toInt ∨ (v = .maxValue ∧ (make.1 v).comparison = .greater)) ∧
      List.Forall₂ (fun c m => c.Asks m.name (· = v.toInt) ↔ HeldExactly v.toInt)
        (g.equalInt v) g.members ∧
      ∀ w : Int32, HeldExactly v.toInt → HeldExactly w.toInt →
        ∀ make ∈ r.intConditions, make.1 v = make.1 w ↔ v = w := by
  have hx := Single.nearestTo_ofInt (natAbs_toInt_le v)
  obtain ⟨t, ht⟩ := hx.exists_int (natAbs_toInt_le v)
  have hasks (m : Reference .int) := m.asks_of_value hx.isFinite ht
  have hequals (m : Reference .int) : (m.equalsInt v).Asks m.name (· = t) :=
    hasks m (m.equalsInt, fun p v => p = v) List.mem_cons_self
  refine ⟨t, hx, ht, hasks r, ?_, hx.eq_iff_held (natAbs_toInt_le v) ht, .of_natAbs_le,
    fun make hmake => ?_, ?_, fun w hv hw => r.condition_inj hv hw⟩
  · rw [ReferenceGroup.equalInt, List.forall₂_map_left_iff, List.forall₂_same]
    exact fun m _ => hequals m
  · exact (hasks r make hmake).congr.trans (r.agrees_iff hx ht make hmake)
  · rw [ReferenceGroup.equalInt, List.forall₂_map_left_iff, List.forall₂_same]
    exact fun m _ => (hequals m).congr.trans
      (forall_eq_iff.trans (hx.eq_iff_held (natAbs_toInt_le v) ht))

/-- The first integer that needs 25 bits is compared by its even neighbour. -/
theorem rounded_past_24_bits :
    (equalsInt ⟨"Score"⟩ 16777217).HoldsIn (fun _ => (16777216 : Int32).toInt) ∧
      ¬(differsFromInt ⟨"Score"⟩ 16777217).HoldsIn (fun _ => (16777216 : Int32).toInt) ∧
      (exceedsInt ⟨"Score"⟩ 16777217).HoldsIn (fun _ => (16777217 : Int32).toInt) ∧
      ¬(belowInt ⟨"Score"⟩ 16777217).HoldsIn (fun _ => (16777216 : Int32).toInt) ∧
      ReferenceGroup.equalInt ⟨[⟨"Score"⟩]⟩ 16777217 =
        ReferenceGroup.equalInt ⟨[⟨"Score"⟩]⟩ 16777216 := by
  have hneighbour : Single.ofInt (16777216 : Int32).toInt = ⟨0x4b800000⟩ := by decide
  have hsame : Single.ofInt (16777217 : Int32).toInt = ⟨0x4b800000⟩ := by decide
  have hfinite : (⟨0x4b800000⟩ : Single).isFinite = true := by decide
  have hvalue : (⟨0x4b800000⟩ : Single).value = 16777216 := by
    have hsign : (⟨0x4b800000⟩ : Single).isNegative = false := by decide
    have hmagnitude : (⟨0x4b800000⟩ : Single).magnitude = ⟨2 ^ 23, 1⟩ := by decide
    rw [Single.value, hsign, hmagnitude]
    norm_num [Single.signed, Binary.value]
  have hbefore : (16777216 : Int32).toInt = 16777216 := by decide
  have hitself : (16777217 : Int32).toInt = 16777217 := by decide
  simp only [Condition.HoldsIn, equalsInt, differsFromInt, exceedsInt, belowInt, condition,
    Comparison.Relates, hsame, hfinite, hvalue, hbefore, true_and]
  rw [hitself]
  refine ⟨by norm_num, by norm_num, by norm_num, by norm_num, ?_⟩
  simp only [ReferenceGroup.equalInt, equalsInt, condition, List.map_cons, List.map_nil, hsame,
    hneighbour]

end Reference

end Statechart
