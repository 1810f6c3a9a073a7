import Mathlib.Algebra.Group.Nat.Defs
import Statechart.Proofs.Digits
import Statechart.Timestamp
import Statechart.Uuid

/-! Points in time and identities are read back from their spellings. -/

namespace Statechart

theorem not_isSpace_of_mem_map_digitChar {ds : List Nat} (hd : ∀ d ∈ ds, d < 10) {c : Char}
    (hc : c ∈ ds.map digitChar) : Timestamp.isSpace c = false ∧ c ≠ '-' ∧ c ≠ '+' := by
  obtain ⟨d, hmem, rfl⟩ := List.mem_map.mp hc
  have hlt := hd d hmem
  clear hmem hc
  revert d
  decide

namespace Timestamp

variable {width n : Nat} {cs : List Char}

theorem length_padded (hw : 0 < width) (hn : n < 10 ^ width) : (padded width n).length = width := by
  rw [padded, List.length_map, length_paddedDigits (by decide) hw hn]

theorem exists_padded_eq_cons (width n : Nat) :
    ∃ c rest, padded width n = c :: rest ∧ isSpace c = false ∧ c ≠ '-' ∧ c ≠ '+' := by
  obtain ⟨d, ds, hds⟩ := List.exists_cons_of_ne_nil (paddedDigits_ne_nil 10 width n)
  refine ⟨digitChar d, ds.map digitChar, by rw [padded, hds, List.map_cons], ?_⟩
  have hd : ∀ e ∈ d :: ds, e < 10 := fun e he => lt_of_mem_paddedDigits (by decide) (hds ▸ he)
  exact not_isSpace_of_mem_map_digitChar hd (by simp)

theorem skipSpace_padded (width n : Nat) (cs : List Char) :
    skipSpace (padded width n ++ cs) = padded width n ++ cs := by
  obtain ⟨c, rest, heq, hspace, -⟩ := exists_padded_eq_cons width n
  simp [skipSpace, heq, hspace]

theorem readDigits?_padded (width n : Nat) (hcs : Numeral.EndsDigits cs) :
    readDigits? (padded width n ++ cs) = some (n, cs) := by
  have hread : Numeral.readDigits (padded width n ++ cs) = (paddedDigits 10 width n, cs) :=
    Numeral.readDigits_append (fun d hd => lt_of_mem_paddedDigits (by decide) hd) hcs
  obtain ⟨d, ds, hds⟩ := List.exists_cons_of_ne_nil (paddedDigits_ne_nil 10 width n)
  rw [readDigits?, hread, hds]
  show some (ofDigits 10 (d :: ds), cs) = _
  rw [← hds, ofDigits_paddedDigits (by decide)]

theorem readShort?_padded (width n : Nat) (hw : 0 < width) (hn : n < 10 ^ width)
    (cs : List Char) : readShort? width (padded width n ++ cs) = some (n, cs) := by
  have hlen := length_padded hw hn
  have hread := readDigits?_padded width n Numeral.endsDigits_nil
  rw [List.append_nil] at hread
  rw [readShort?, List.take_left' hlen, List.drop_left' hlen, hread]
  rfl

theorem readPart?_padded (hn : n < 100) (cs : List Char) :
    readPart? (padded 2 n ++ cs) = some (n, cs) := by
  rw [readPart?, skipSpace_padded, readShort?_padded 2 n (by decide) (by omega)]

theorem expect?_cons {c : Char} (hc : isSpace c = false) (cs : List Char) :
    expect? c (c :: cs) = some cs := by
  simp [expect?, skipSpace, hc]

theorem readYear?_renderYear (year : Int) (cs : List Char) :
    readYear? (renderYear year ++ '-' :: cs) = some (year, '-' :: cs) := by
  have hends : Numeral.EndsDigits ('-' :: cs) := Numeral.endsDigits_cons (by decide)
  by_cases hshort : 0 ≤ year ∧ year ≤ 9999
  · have hread := readShort?_padded 4 year.toNat (by decide) (by omega) ('-' :: cs)
    obtain ⟨c, rest, heq, -, hminus, hplus⟩ := exists_padded_eq_cons 4 year.toNat
    rw [heq, List.cons_append] at hread
    rw [renderYear, if_pos hshort, readYear?, skipSpace_padded, heq, List.cons_append]
    split
    · rename_i h
      exact absurd (List.cons.inj h).1 hminus
    · rename_i h
      exact absurd (List.cons.inj h).1 hplus
    · rw [hread, Option.map_some]
      have hyear : (year.toNat : Int) = year := by omega
      rw [hyear]
  · have hread := readDigits?_padded 4 year.natAbs hends
    by_cases hneg : year < 0
    · have hyear : -(year.natAbs : Int) = year := by omega
      rw [renderYear, if_neg hshort, if_pos hneg]
      show (readDigits? (padded 4 year.natAbs ++ '-' :: cs)).map _ = _
      rw [hread, Option.map_some, hyear]
    · have hyear : (year.natAbs : Int) = year := by omega
      rw [renderYear, if_neg hshort, if_neg hneg]
      show (readDigits? (padded 4 year.natAbs ++ '-' :: cs)).map _ = _
      rw [hread, Option.map_some, hyear]

/-- Digits that a fraction leaves out at its end are zeros. -/
theorem readFraction?_padded {width n : Nat} (hw : 0 < width) (hle : width ≤ 9)
    (hn : n < 10 ^ width) (hcs : Numeral.EndsDigits cs) :
    readFraction? ('.' :: padded width n ++ cs) = some (n * 10 ^ (9 - width), cs) := by
  have hlen := length_paddedDigits (by decide : 1 < 10) hw hn
  have hread : Numeral.readDigits (padded width n ++ cs) = (paddedDigits 10 width n, cs) :=
    Numeral.readDigits_append (fun d hd => lt_of_mem_paddedDigits (by decide) hd) hcs
  obtain ⟨d, ds, hds⟩ := List.exists_cons_of_ne_nil (paddedDigits_ne_nil 10 width n)
  rw [List.cons_append, readFraction?, hread, hds]
  show some (ofDigits 10 ((d :: ds).take 9 ++ List.replicate (9 - (d :: ds).length) 0), cs) = _
  rw [← hds, hlen, List.take_of_length_le (by omega), ofDigits_append, ofDigits_replicate_zero,
    ofDigits_paddedDigits (by decide), List.length_replicate, Nat.add_zero]

theorem readFraction?_renderFraction {nanosecond : Nat} (h : nanosecond < 10 ^ 9) :
    readFraction? (renderFraction nanosecond ++ ['Z']) = some (nanosecond, ['Z']) := by
  have hends : Numeral.EndsDigits ['Z'] := Numeral.endsDigits_cons (by decide)
  rw [renderFraction]
  split
  · rename_i hzero
    rw [hzero]
    rfl
  · split
    · rename_i hmod
      rw [readFraction?_padded (by decide) (by decide) (by omega) hends]
      have hscale : nanosecond / 10 ^ 6 * 10 ^ (9 - 3) = nanosecond := by omega
      rw [hscale]
    · split
      · rename_i hmod
        rw [readFraction?_padded (by decide) (by decide) (by omega) hends]
        have hscale : nanosecond / 10 ^ 3 * 10 ^ (9 - 6) = nanosecond := by omega
        rw [hscale]
      · rw [readFraction?_padded (by decide) (by decide) h hends]
        simp

theorem earlier_zero {t : CivilTime} (h : t.Valid) : t.earlier 0 = t := by
  obtain ⟨-, -, -, hhour, hminute, -, -⟩ := h
  have hday : ¬(t.hour * 60 + t.minute - 0 : Int) < 0 ∧
      ¬1440 ≤ (t.hour * 60 + t.minute - 0 : Int) := by omega
  have hhours : ((t.hour * 60 + t.minute - 0 : Int) % 1440).toNat / 60 = t.hour := by omega
  have hminutes : ((t.hour * 60 + t.minute - 0 : Int) % 1440).toNat % 60 = t.minute := by omega
  simp only [CivilTime.earlier, if_neg hday.1, if_neg hday.2, hhours, hminutes]

theorem readLocal?_render (t : Timestamp) :
    readLocal? t.render.toList = some ((t.toCivilTime, 0), []) := by
  obtain ⟨-, hmonth, hday, hhour, hminute, hsecond, hnano⟩ := t.valid
  have hlength : CivilTime.monthLength t.year t.month ≤ 31 := by
    simp only [CivilTime.monthLength]
    split <;> split <;> omega
  have hzone : readZone? (skipSpace ['Z']) = some (0, []) := rfl
  simp only [render, String.toList_ofList, readLocal?, List.append_assoc, List.cons_append,
    readYear?_renderYear, Option.bind_eq_bind, Option.bind_some]
  rw [expect?_cons (by decide)]
  simp only [Option.bind_some, readPart?_padded (show t.month < 100 by omega)]
  rw [expect?_cons (by decide)]
  simp only [Option.bind_some, readPart?_padded (show t.day < 100 by omega), readSeparator?,
    true_or, if_true, readPart?_padded (show t.hour < 100 by omega)]
  rw [expect?_cons (by decide)]
  simp only [Option.bind_some, readPart?_padded (show t.minute < 100 by omega)]
  rw [expect?_cons (by decide)]
  simp only [Option.bind_some, readPart?_padded (show t.second < 100 by omega),
    readFraction?_renderFraction hnano, hzone]
  rfl

theorem parse?_render (t : Timestamp) : parse? t.render = some t := by
  have hrest : t.Valid ∧ skipSpace [] = [] := ⟨t.valid, rfl⟩
  simp only [parse?, readLocal?_render, Option.bind_eq_bind, Option.bind_some, if_pos hrest,
    earlier_zero t.valid, ofCivil?, dif_pos t.valid]

end Timestamp

namespace Uuid

theorem hexText_cons (b : UInt8) (bs : List UInt8) :
    ∃ c d, hexText (b :: bs) = c :: d :: hexText bs ∧
      (do return ofDigits 16 [← hexValue? c, ← hexValue? d]) = some b.toNat := by
  have hb : b.toNat < 16 ^ 2 := b.toNat_lt
  have hlen := length_paddedDigits (by decide : 1 < 16) (by decide) hb
  have hvalue := ofDigits_paddedDigits (by decide : 1 < 16) 2 b.toNat
  have hlt : ∀ d ∈ paddedDigits 16 2 b.toNat, d < 16 := fun d hd =>
    lt_of_mem_paddedDigits (by decide) hd
  obtain ⟨c, d, heq⟩ : ∃ c d, paddedDigits 16 2 b.toNat = [c, d] := by
    match paddedDigits 16 2 b.toNat, hlen with
    | [c, d], _ => exact ⟨c, d, rfl⟩
  rw [heq] at hvalue hlt
  refine ⟨digitChar c, digitChar d, by simp [hexText, heq], ?_⟩
  rw [hexValue?_digitChar (hlt c (by simp)), hexValue?_digitChar (hlt d (by simp)), ← hvalue]
  rfl

theorem length_hexText (bs : List UInt8) : (hexText bs).length = 2 * bs.length := by
  induction bs with
  | nil => rfl
  | cons b bs ih =>
    obtain ⟨c, d, heq, -⟩ := hexText_cons b bs
    rw [heq, List.length_cons, List.length_cons, List.length_cons, ih]
    omega

theorem hexText_append (bs cs : List UInt8) : hexText (bs ++ cs) = hexText bs ++ hexText cs :=
  List.flatMap_append

theorem readHex?_hexText (bs : List UInt8) : readHex? (hexText bs) = some bs := by
  induction bs with
  | nil => rfl
  | cons b bs ih =>
    obtain ⟨c, d, heq, hvalue⟩ := hexText_cons b bs
    simp only [Option.bind_eq_bind, Option.pure_def, Option.bind_eq_some_iff,
      Option.some.injEq] at hvalue
    obtain ⟨m, hm, n, hn, hb⟩ := hvalue
    simp only [heq, readHex?, hm, hn, ih, hb, Option.bind_eq_bind, Option.bind_some,
      UInt8.ofNat_toNat]
    rfl

theorem ungroup?_append {a b c d e : List Char} (ha : a.length = 8) (hb : b.length = 4)
    (hc : c.length = 4) (hd : d.length = 4) (he : e.length = 12) :
    ungroup? (a ++ '-' :: b ++ '-' :: c ++ '-' :: d ++ '-' :: e) =
      some (a ++ b ++ c ++ d ++ e) := by
  simp [ungroup?, ha, hb, hc, hd, he, List.getElem?_append, List.drop_append,
    List.drop_of_length_le]

theorem hexText_groups (u : Uuid) :
    hexText (u.bytes.take 4) ++ hexText ((u.bytes.drop 4).take 2) ++
      hexText ((u.bytes.drop 6).take 2) ++ hexText ((u.bytes.drop 8).take 2) ++
      hexText ((u.bytes.drop 10).take 6) = hexText u.bytes := by
  have hsize := u.size
  have hlast : (u.bytes.drop 10).take 6 = u.bytes.drop 10 :=
    List.take_of_length_le (by rw [List.length_drop]; omega)
  rw [hlast]
  simp only [← hexText_append, List.append_assoc]
  have hjoin (m n : Nat) : (u.bytes.drop m).take n ++ u.bytes.drop (m + n) = u.bytes.drop m := by
    rw [← List.drop_drop, List.take_append_drop]
  rw [hjoin 8 2, hjoin 6 2, hjoin 4 2, List.take_append_drop]

theorem parse?_render (u : Uuid) : parse? u.render = some u := by
  have hsize := u.size
  have hlength (m n : Nat) (h : m + n ≤ 16) :
      (hexText ((u.bytes.drop m).take n)).length = 2 * n := by
    rw [length_hexText, List.length_take, List.length_drop]
    omega
  have hungroup := ungroup?_append (hlength 0 4 (by decide)) (hlength 4 2 (by decide))
    (hlength 6 2 (by decide)) (hlength 8 2 (by decide)) (hlength 10 6 (by decide))
  rw [List.drop_zero, hexText_groups] at hungroup
  have hdigits : ungroup? u.render.toList = some (hexText u.bytes) := by
    rw [render, String.toList_ofList]
    exact hungroup
  have hlen : u.render.toList.length = 36 := by
    simp only [render, String.toList_ofList, List.length_append, List.length_cons,
      hlength 0 4 (by decide), hlength 4 2 (by decide), hlength 6 2 (by decide),
      hlength 8 2 (by decide), hlength 10 6 (by decide)]
  have hne : ¬u.render.toList.length = 32 := by omega
  simp only [parse?, if_neg hne, if_pos hlen, hdigits, Option.bind_eq_bind, Option.bind_some,
    readHex?_hexText, ofBytes?, dif_pos hsize]

end Uuid

end Statechart
