import Mathlib
import Statechart.SingleText
import Statechart.Proofs.Lexing
import Statechart.Proofs.Shortness

/-! Numbers as numerals: the numeral of a number spells its shortest decimal exactly. -/

namespace Statechart

theorem ofDigits_cons (base d : Nat) (ds : List Nat) :
    ofDigits base (d :: ds) = d * base ^ ds.length + ofDigits base ds := by
  have hsplit := ofDigits_append base [d] ds
  simpa [ofDigits] using hsplit

/-- Digits of a positive number, leading digit first. -/
structure Significant (ds : List Nat) : Prop where
  ne_nil : ds ≠ []
  head_ne_zero : ∀ d rest, ds = d :: rest → d ≠ 0
  lt_ten : ∀ d ∈ ds, d < 10

namespace Decimal

/-- Only zeros at the end are left out of the digits. -/
theorem digits_spec (d : Decimal) :
    ∃ z, digitsOf 10 d.coefficient = d.digits.1 ++ List.replicate z 0 ∧
      d.digits.2 = d.exponent + z + d.digits.1.length - 1 := by
  set ds := digitsOf 10 d.coefficient with hds
  have hsplit := congrArg List.reverse
    (List.takeWhile_append_dropWhile (p := fun c : Nat => c == 0) (l := ds.reverse))
  have hzeros : ∀ c ∈ (ds.reverse.takeWhile (· == 0)).reverse, c = 0 := by
    intro c hc
    have htest := List.mem_takeWhile_imp (List.mem_reverse.mp hc)
    exact eq_of_beq htest
  rw [List.reverse_append, List.reverse_reverse, List.eq_replicate_of_mem hzeros] at hsplit
  refine ⟨_, hsplit.symm, ?_⟩
  have hlen := congrArg List.length hsplit
  rw [List.length_append, List.length_replicate] at hlen
  show d.exponent + (ds.length : ℤ) - 1 = _
  rw [← hlen]
  push_cast
  show _ = d.exponent + _ + ((ds.reverse.dropWhile (· == 0)).reverse.length : ℤ) - 1
  ring

theorem significant_digits {d : Decimal} (hd : 0 < d.coefficient) : Significant d.digits.1 := by
  obtain ⟨z, hdigits, -⟩ := d.digits_spec
  refine ⟨fun hnil => ?_, fun c rest heq => ?_, fun c hc => ?_⟩
  · have hvalue := ofDigits_digitsOf (by decide : 1 < 10) d.coefficient
    rw [hdigits, hnil, List.nil_append, ofDigits_replicate_zero] at hvalue
    omega
  · rw [heq, List.cons_append] at hdigits
    exact ne_zero_of_digitsOf_eq_cons (by decide) hd.ne' hdigits
  · refine lt_of_mem_digitsOf (by decide : 1 < 10) (n := d.coefficient) ?_
    rw [hdigits]
    exact List.mem_append_left _ hc

theorem coefficient_eq (d : Decimal) :
    ∃ z : Nat, d.coefficient = ofDigits 10 d.digits.1 * 10 ^ z ∧
      d.digits.2 + 1 - d.digits.1.length = d.exponent + z := by
  obtain ⟨z, hdigits, hexponent⟩ := d.digits_spec
  have hvalue := ofDigits_digitsOf (by decide : 1 < 10) d.coefficient
  rw [hdigits, ofDigits_append, ofDigits_replicate_zero, List.length_replicate] at hvalue
  exact ⟨z, hvalue.symm, by omega⟩

theorem length_digits_le {d : Decimal} (hd : d.coefficient < 10 ^ 10) :
    d.digits.1.length ≤ 10 := by
  obtain ⟨z, hdigits, -⟩ := d.digits_spec
  have hlen := length_digitsOf_le (by decide : 1 < 10) (by decide) hd
  rw [hdigits, List.length_append] at hlen
  omega

end Decimal

namespace Numeral

theorem significand_eq {s : Nat} {ds : List Nat}
    (h : s * 10 ^ ds.length + ofDigits 10 ds < 2 ^ 64) :
    significand s ds = (s * 10 ^ ds.length + ofDigits 10 ds, 0) := by
  induction ds generalizing s with
  | nil => simp [significand, ofDigits]
  | cons d ds ih =>
    rw [ofDigits_cons] at h ⊢
    have hstep : s * 10 ^ (d :: ds).length + (d * 10 ^ ds.length + ofDigits 10 ds) =
        (s * 10 + d) * 10 ^ ds.length + ofDigits 10 ds := by
      rw [List.length_cons, pow_succ]
      ring
    rw [hstep] at h ⊢
    have hpow : 1 ≤ 10 ^ ds.length := Nat.one_le_pow _ _ (by decide)
    have hfits : s * 10 + d < 2 ^ 64 := by nlinarith
    rw [significand, if_pos hfits, ih h]

theorem scaled_eq {n : Numeral} {s : Nat} (hs : ofDigits 10 (n.whole ++ n.fraction) = s)
    (h : s < 2 ^ 64) : n.scaled = (s, n.exponent.getD 0 - n.fraction.length) := by
  rw [ofDigits_append] at hs
  rw [← hs] at h ⊢
  have hpow : 1 ≤ 10 ^ n.fraction.length := Nat.one_le_pow _ _ (by decide)
  have hwhole : significand 0 n.whole = (ofDigits 10 n.whole, 0) := by
    have hfits : 0 * 10 ^ n.whole.length + ofDigits 10 n.whole < 2 ^ 64 := by nlinarith
    rw [significand_eq hfits, Nat.zero_mul, Nat.zero_add]
  simp only [scaled, hwhole, significand_eq h]
  simp

/-- The numeral of a number with the given digits, of which the first has the given exponent. -/
def ofScientific (negative : Bool) (ds : List Nat) (e : Int) : Numeral :=
  if 12 < e ∨ e < -6 then ⟨negative, ds.take 1, ds.drop 1, some e⟩
  else if e < 0 then ⟨negative, [0], List.replicate (e.natAbs - 1) 0 ++ ds, none⟩
  else
    ⟨negative, ds.take (e.toNat + 1) ++ List.replicate (e.toNat + 1 - ds.length) 0,
      if ds.length ≤ e.toNat + 1 then [0] else ds.drop (e.toNat + 1), none⟩

variable {negative : Bool} {ds : List Nat} {e : Int}

theorem wellFormed_ofScientific (h : Significant ds) : (ofScientific negative ds e).WellFormed := by
  obtain ⟨d, rest, rfl⟩ := List.exists_cons_of_ne_nil h.ne_nil
  have hhead := h.head_ne_zero d rest rfl
  have hlt := h.lt_ten
  rw [ofScientific]
  split
  · exact ⟨by simp, fun c hc => hlt c (by simp_all), by simp, fun c hc => hlt c (by simp_all)⟩
  · split
    · refine ⟨by simp, by simp, by simp, fun c hc => ?_⟩
      rcases List.mem_append.mp hc with hc | hc
      · rw [(List.mem_replicate.mp hc).2]
        decide
      · exact hlt c hc
    · refine ⟨by simp, fun c hc => ?_, ?_, fun c hc => ?_⟩
      · rcases List.mem_append.mp hc with hc | hc
        · exact hlt c (List.mem_of_mem_take hc)
        · rw [(List.mem_replicate.mp hc).2]
          decide
      · intro c cs heq
        rw [List.take_succ_cons, List.cons_append] at heq
        exact hhead (List.cons.inj heq).1
      · dsimp only at hc
        split at hc
        · rw [List.mem_singleton.mp hc]
          decide
        · exact hlt c (List.mem_of_mem_drop hc)

theorem integer?_ofScientific (h : Significant ds) :
    (ofScientific negative ds e).integer? = none := by
  have hne := h.ne_nil
  rw [ofScientific]
  split
  · simp [integer?]
  · split
    · simp [integer?, hne]
    · rename_i hle _
      split
      · simp [integer?]
      · rename_i hlen
        have hdrop : ds.drop (e.toNat + 1) ≠ [] := by
          rw [ne_eq, List.drop_eq_nil_iff]
          omega
        simp [integer?, hdrop]

theorem ofDigits_pos (h : Significant ds) : 0 < ofDigits 10 ds := by
  obtain ⟨d, rest, rfl⟩ := List.exists_cons_of_ne_nil h.ne_nil
  have hhead := Nat.pos_of_ne_zero (h.head_ne_zero d rest rfl)
  rw [ofDigits_cons]
  positivity

theorem scaled_leadingZeros {k : Nat} (hlt : ofDigits 10 ds < 2 ^ 64) :
    (Numeral.mk negative [0] (List.replicate k 0 ++ ds) none).scaled =
      (ofDigits 10 ds, -(k + ds.length : Int)) := by
  have hdigits : ofDigits 10 ([0] ++ (List.replicate k 0 ++ ds)) = ofDigits 10 ds := by
    rw [← List.append_assoc, ← List.replicate_one, List.replicate_append_replicate, ofDigits_append,
      ofDigits_replicate_zero, Nat.zero_mul, Nat.zero_add]
  rw [scaled_eq hdigits hlt, List.length_append, List.length_replicate, Option.getD_none,
    Prod.mk.injEq]
  exact ⟨rfl, by omega⟩

theorem scaled_trailingZeros {k : Nat} (hlt : ofDigits 10 ds * 10 ^ (k + 1) < 2 ^ 64) :
    (Numeral.mk negative (ds ++ List.replicate k 0) [0] none).scaled =
      (ofDigits 10 ds * 10 ^ (k + 1), -1) := by
  have hdigits : ofDigits 10 (ds ++ List.replicate k 0 ++ [0]) = ofDigits 10 ds * 10 ^ (k + 1) := by
    rw [List.append_assoc, ← List.replicate_one, List.replicate_append_replicate, ofDigits_append,
      ofDigits_replicate_zero, List.length_replicate, Nat.add_zero]
  rw [scaled_eq hdigits hlt]
  rfl

theorem scaled_split {k : Nat} {exponent : Option Int} (hk : k ≤ ds.length)
    (hlt : ofDigits 10 ds < 2 ^ 64) :
    (Numeral.mk negative (ds.take k) (ds.drop k) exponent).scaled =
      (ofDigits 10 ds, exponent.getD 0 + k - ds.length) := by
  have hdigits : ofDigits 10 (ds.take k ++ ds.drop k) = ofDigits 10 ds := by
    rw [List.take_append_drop]
  rw [scaled_eq hdigits hlt, List.length_drop, Prod.mk.injEq]
  dsimp only
  exact ⟨rfl, by omega⟩

/-- The numeral spells the significand and the power of ten that its digits and exponent call for,
or one digit more where its point is written for the sake of form. -/
theorem scaled_ofScientific (h : Significant ds) (hlen : ds.length ≤ 10) :
    (ofScientific negative ds e).scaled = (ofDigits 10 ds, e + 1 - ds.length) ∨
      (ofScientific negative ds e).scaled =
        (ofDigits 10 ds * 10 ^ (e.toNat + 2 - ds.length), -1) ∧
        ofDigits 10 ds * 10 ^ (e.toNat + 2 - ds.length) < 10 ^ 14 ∧ 0 ≤ e ∧
          ds.length ≤ e.toNat + 1 := by
  have hlt := ofDigits_lt ds h.lt_ten
  have hpow : 10 ^ ds.length ≤ 10 ^ 10 := Nat.pow_le_pow_right (by decide) hlen
  have hpos : 1 ≤ ds.length := List.length_pos_iff.mpr h.ne_nil
  rw [ofScientific]
  split
  · left
    rw [scaled_split hpos (by omega), Option.getD_some]
    rfl
  · split
    · left
      rw [scaled_leadingZeros (by omega), Prod.mk.injEq]
      exact ⟨rfl, by omega⟩
    · rename_i hrange hneg
      by_cases hshort : ds.length ≤ e.toNat + 1
      · right
        have hzeros : e.toNat + 2 - ds.length = e.toNat + 1 - ds.length + 1 := by omega
        have hbound : ofDigits 10 ds * 10 ^ (e.toNat + 2 - ds.length) < 10 ^ 14 := by
          have hsplit : ds.length + (e.toNat + 2 - ds.length) = e.toNat + 2 := by omega
          calc ofDigits 10 ds * 10 ^ (e.toNat + 2 - ds.length)
              < 10 ^ ds.length * 10 ^ (e.toNat + 2 - ds.length) :=
                Nat.mul_lt_mul_of_pos_right hlt (Nat.pow_pos (by decide))
            _ = 10 ^ (e.toNat + 2) := by rw [← Nat.pow_add, hsplit]
            _ ≤ 10 ^ 14 := Nat.pow_le_pow_right (by decide) (by omega)
        have hfits := hbound.trans (by decide : 10 ^ 14 < 2 ^ 64)
        rw [hzeros] at hfits
        rw [if_pos hshort, List.take_of_length_le hshort, scaled_trailingZeros hfits, ← hzeros]
        exact ⟨rfl, hbound, by omega, hshort⟩
      · left
        have hnone : e.toNat + 1 - ds.length = 0 := by omega
        rw [if_neg hshort, hnone, List.replicate_zero, List.append_nil,
          scaled_split (by omega) (by omega), Prod.mk.injEq]
        exact ⟨rfl, by simp only [Option.getD_none]; omega⟩

end Numeral

namespace Single

variable {x : Single}

theorem toNumeral_eq (h : x.Proper) :
    x.toNumeral = .ofScientific x.isNegative (x.shortest .even).digits.1
      (x.shortest .even).digits.2 := by
  delta toNumeral
  dsimp only
  rw [if_neg h.coefficient_ne_zero]
  rfl

theorem wellFormed_toNumeral (hx : x.isFinite = true) : x.toNumeral.WellFormed := by
  by_cases hzero : x.magnitude.coefficient = 0
  · delta toNumeral
    dsimp only
    rw [if_pos hzero]
    exact ⟨by simp, by simp, by simp, by simp⟩
  · have h : x.Proper := ⟨hx, hzero⟩
    have hspelling := Spelling.shortest h .even
    rw [toNumeral_eq h]
    exact Numeral.wellFormed_ofScientific (Decimal.significant_digits (hspelling.coefficient_pos h))

theorem scaled_toNumeral (h : x.Proper) :
    ∃ s e, x.toNumeral.scaled = (s, e) ∧ 0 < s ∧ s < 2 ^ 53 ∧ -53 ≤ e ∧ e ≤ 48 ∧
      (s : ℚ) * 10 ^ e = (x.shortest .even).value := by
  have hspelling := Spelling.shortest h .even
  have hcoefficient := hspelling.coefficient_le
  have hsignificant := Decimal.significant_digits (hspelling.coefficient_pos h)
  have hlen := Decimal.length_digits_le (d := x.shortest .even) (by omega)
  have hpos := Numeral.ofDigits_pos hsignificant
  have hlt := ofDigits_lt _ hsignificant.lt_ten
  have hpow : 10 ^ (x.shortest .even).digits.1.length ≤ 10 ^ 10 :=
    Nat.pow_le_pow_right (by decide) hlen
  obtain ⟨z, hvalue, hexponent⟩ := Decimal.coefficient_eq (x.shortest .even)
  have hfirst := hspelling.exponent_ge
  have hlast := hspelling.exponent_le
  have hz : z ≤ 9 := by
    by_contra hlarge
    have hpow : 10 ^ 10 ≤ 10 ^ z := Nat.pow_le_pow_right (by decide) (by omega)
    nlinarith
  have hspells : (ofDigits 10 (x.shortest .even).digits.1 : ℚ) *
      10 ^ ((x.shortest .even).digits.2 + 1 - (x.shortest .even).digits.1.length) =
        (x.shortest .even).value := by
    rw [hexponent, Decimal.value, hvalue, zpow_add₀ (by norm_num), zpow_natCast]
    push_cast
    ring
  rw [toNumeral_eq h]
  rcases @Numeral.scaled_ofScientific x.isNegative _ (x.shortest .even).digits.2 hsignificant hlen
    with hscaled | ⟨hscaled, hbound, hneg, hshort⟩
  · exact ⟨_, _, hscaled, hpos, by omega, by omega, by omega, hspells⟩
  · refine ⟨_, _, hscaled, by positivity, hbound.trans (by decide), by decide, by decide, ?_⟩
    rw [← hspells]
    generalize (x.shortest .even).digits.2 = e at hneg hshort
    generalize (x.shortest .even).digits.1 = ds at hshort
    have hpoint : e + 1 - ds.length = ((e.toNat + 2 - ds.length : ℕ) : ℤ) + -1 := by omega
    rw [hpoint, zpow_add₀ (by norm_num), zpow_natCast]
    push_cast
    ring

end Single

end Statechart
