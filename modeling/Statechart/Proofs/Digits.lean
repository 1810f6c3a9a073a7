import Mathlib.Data.List.Induction
import Statechart.Numeral

/-! Digits as text: a number written in some base is the number that its digits tell, and a run of
decimal digits is read up to where it ends. -/

namespace Statechart

theorem digitsOf_ne_nil (base n : Nat) : digitsOf base n ≠ [] := by
  rw [digitsOf]
  split <;> simp

theorem ne_zero_of_digitsOf_eq_cons {base n d : Nat} {ds : List Nat} (hb : 1 < base) (hn : n ≠ 0)
    (h : digitsOf base n = d :: ds) : d ≠ 0 := by
  induction n using Nat.strongRecOn generalizing ds with
  | ind n ih =>
    rw [digitsOf] at h
    split at h
    · rename_i hle
      have hdiv : n / base ≠ 0 := Nat.ne_of_gt (Nat.div_pos hle.2 (by omega))
      obtain ⟨e, es, heq⟩ := List.exists_cons_of_ne_nil (digitsOf_ne_nil base (n / base))
      rw [heq, List.cons_append, List.cons.injEq] at h
      exact ih (n / base) (Nat.div_lt_self (by omega) hb) hdiv (h.1 ▸ heq)
    · obtain ⟨rfl, -⟩ := List.cons.inj h
      exact hn

theorem digitsOf_ne_zero_cons {base : Nat} (hb : 1 < base) (n d : Nat) (ds : List Nat) :
    digitsOf base n ≠ 0 :: d :: ds := by
  intro h
  by_cases hn : n = 0
  · rw [digitsOf, if_neg (by omega)] at h
    simp at h
  · exact ne_zero_of_digitsOf_eq_cons hb hn h rfl

theorem lt_of_mem_digitsOf {base n d : Nat} (hb : 1 < base) (hd : d ∈ digitsOf base n) :
    d < base := by
  induction n using Nat.strongRecOn with
  | ind n ih =>
    rw [digitsOf] at hd
    split at hd
    · rename_i hn
      rcases List.mem_append.mp hd with hd | hd
      · exact ih (n / base) (Nat.div_lt_self (by omega) hb) hd
      · rw [List.mem_singleton.mp hd]
        exact Nat.mod_lt n (by omega)
    · rename_i hn
      have hlt : n < base := by omega
      rwa [List.mem_singleton.mp hd]

theorem ofDigits_append (base : Nat) (ds es : List Nat) :
    ofDigits base (ds ++ es) = ofDigits base ds * base ^ es.length + ofDigits base es := by
  induction es using List.reverseRecOn with
  | nil => simp [ofDigits]
  | append_singleton es e ih =>
    simp only [ofDigits, ← List.append_assoc, List.foldl_append, List.foldl_cons,
      List.foldl_nil, List.length_append, List.length_singleton] at ih ⊢
    rw [ih, Nat.add_mul, Nat.mul_assoc, Nat.pow_succ, Nat.add_assoc]

@[simp] theorem ofDigits_replicate_zero (base n : Nat) :
    ofDigits base (List.replicate n 0) = 0 := by
  induction n with
  | zero => rfl
  | succ n ih => simpa [ofDigits, List.replicate_succ] using ih

theorem ofDigits_digitsOf {base : Nat} (hb : 1 < base) (n : Nat) :
    ofDigits base (digitsOf base n) = n := by
  induction n using Nat.strongRecOn with
  | ind n ih =>
    rw [digitsOf]
    split
    · rename_i hn
      rw [ofDigits_append, ih (n / base) (Nat.div_lt_self (by omega) hb)]
      have hone : ofDigits base [n % base] = n % base := by simp [ofDigits]
      rw [hone, List.length_singleton, Nat.pow_one, Nat.mul_comm]
      exact Nat.div_add_mod n base
    · simp [ofDigits]

theorem ofDigits_lt {base : Nat} (ds : List Nat) (hd : ∀ d ∈ ds, d < base) :
    ofDigits base ds < base ^ ds.length := by
  induction ds using List.reverseRecOn with
  | nil => simp [ofDigits]
  | append_singleton ds d ih =>
    have hds := ih fun e he => hd e (List.mem_append_left _ he)
    have hlast : d < base := hd d (by simp)
    have hone : ofDigits base [d] = d := by simp [ofDigits]
    rw [ofDigits_append, hone, List.length_append, List.length_singleton, Nat.pow_one,
      Nat.pow_succ]
    calc ofDigits base ds * base + d < ofDigits base ds * base + base := by omega
      _ = (ofDigits base ds + 1) * base := by rw [Nat.add_mul, Nat.one_mul]
      _ ≤ base ^ ds.length * base := Nat.mul_le_mul_right base hds

theorem length_digitsOf_le {base n width : Nat} (hb : 1 < base) (hw : 0 < width)
    (hn : n < base ^ width) : (digitsOf base n).length ≤ width := by
  induction n using Nat.strongRecOn generalizing width with
  | ind n ih =>
    rw [digitsOf]
    split
    · rename_i h
      obtain ⟨w, rfl⟩ : ∃ w, width = w + 1 := ⟨width - 1, by omega⟩
      have hdiv : n / base < base ^ w :=
        Nat.div_lt_of_lt_mul (by rwa [Nat.mul_comm, ← Nat.pow_succ])
      have hpos : 0 < w := by
        rcases Nat.eq_zero_or_pos w with rfl | hpos
        · simp at hn
          omega
        · exact hpos
      have hlen := ih (n / base) (Nat.div_lt_self (by omega) hb) hpos hdiv
      simpa using hlen
    · exact hw

theorem lt_of_mem_paddedDigits {base width n d : Nat} (hb : 1 < base)
    (hd : d ∈ paddedDigits base width n) : d < base := by
  rcases List.mem_append.mp hd with hd | hd
  · rw [(List.mem_replicate.mp hd).2]
    omega
  · exact lt_of_mem_digitsOf hb hd

theorem ofDigits_paddedDigits {base : Nat} (hb : 1 < base) (width n : Nat) :
    ofDigits base (paddedDigits base width n) = n := by
  rw [paddedDigits, ofDigits_append, ofDigits_replicate_zero, ofDigits_digitsOf hb,
    Nat.zero_mul, Nat.zero_add]

theorem length_paddedDigits {base n width : Nat} (hb : 1 < base) (hw : 0 < width)
    (hn : n < base ^ width) : (paddedDigits base width n).length = width := by
  have hlen := length_digitsOf_le hb hw hn
  simp only [paddedDigits, List.length_append, List.length_replicate]
  omega

theorem paddedDigits_ne_nil (base width n : Nat) : paddedDigits base width n ≠ [] := by
  simp [paddedDigits, digitsOf_ne_nil]

theorem isDecimalDigit_digitChar {d : Nat} (hd : d < 10) : isDecimalDigit (digitChar d) = true := by
  revert d
  decide

theorem digitValue_digitChar {d : Nat} (hd : d < 10) : digitValue (digitChar d) = d := by
  revert d
  decide

theorem hexValue?_digitChar {d : Nat} (hd : d < 16) : hexValue? (digitChar d) = some d := by
  revert d
  decide

theorem map_digitValue {ds : List Nat} (hd : ∀ d ∈ ds, d < 10) :
    (ds.map digitChar).map digitValue = ds := by
  have hid : ∀ d ∈ ds, (digitValue ∘ digitChar) d = d := fun d h => digitValue_digitChar (hd d h)
  rw [List.map_map, List.map_congr_left hid, List.map_id']

namespace Numeral

/-- Whether a run of digits can end in front of a text. -/
def EndsDigits (cs : List Char) : Prop := ∀ c rest, cs = c :: rest → isDecimalDigit c = false

theorem endsDigits_nil : EndsDigits [] := nofun

theorem endsDigits_cons {c : Char} {cs : List Char} (hc : isDecimalDigit c = false) :
    EndsDigits (c :: cs) := by
  intro _ _ h
  rwa [← (List.cons.inj h).1]

theorem readDigits_append {ds : List Nat} {cs : List Char} (hd : ∀ d ∈ ds, d < 10)
    (hcs : EndsDigits cs) : readDigits (ds.map digitChar ++ cs) = (ds, cs) := by
  have hall : ∀ c ∈ ds.map digitChar, isDecimalDigit c = true := by
    intro c hc
    obtain ⟨d, hmem, rfl⟩ := List.mem_map.mp hc
    exact isDecimalDigit_digitChar (hd d hmem)
  have hstop : cs.takeWhile isDecimalDigit = [] ∧ cs.dropWhile isDecimalDigit = cs := by
    cases cs with
    | nil => simp
    | cons c cs => simp [hcs c cs rfl]
  rw [readDigits, List.takeWhile_append_of_pos hall, List.dropWhile_append_of_pos hall, hstop.1,
    hstop.2, List.append_nil, map_digitValue hd]

end Numeral

end Statechart
