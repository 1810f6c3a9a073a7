import Mathlib.Data.List.Chain
import Statechart.Json
import Statechart.Proofs.Digits

/-! Documents as text. Numerals, texts and tokens have many spellings, and each of them is read
back; between tokens there may be blanks. What is written is one of the spellings. -/

namespace Statechart

namespace Numeral

/-- At least one digit in front of the point, and no zero in front of another digit. -/
structure WellFormed (n : Numeral) : Prop where
  whole_ne_nil : n.whole ≠ []
  whole_lt : ∀ d ∈ n.whole, d < 10
  leading : ∀ d ds, n.whole ≠ 0 :: d :: ds
  fraction_lt : ∀ d ∈ n.fraction, d < 10

/-- Whether a numeral can end in front of a text. -/
def Ends (cs : List Char) : Prop :=
  EndsDigits cs ∧ ∀ c rest, cs = c :: rest → c ≠ '.' ∧ c ≠ 'e' ∧ c ≠ 'E'

theorem ends_nil : Ends [] := ⟨endsDigits_nil, nofun⟩

theorem ends_cons {c : Char} {cs : List Char} (hd : isDecimalDigit c = false)
    (hc : c ≠ '.' ∧ c ≠ 'e' ∧ c ≠ 'E') : Ends (c :: cs) := by
  refine ⟨endsDigits_cons hd, ?_⟩
  intro _ _ h
  rwa [← (List.cons.inj h).1]

/-- An exponent has either letter, a sign unless it is positive, and digits that may begin with
zeros. -/
inductive SpelledExponent : Option Int → List Char → Prop where
  | none : SpelledExponent none []
  | unsigned {e : Char} {ds : List Nat} (he : e = 'e' ∨ e = 'E') (hne : ds ≠ [])
    (hds : ∀ d ∈ ds, d < 10) :
    SpelledExponent (some (ofDigits 10 ds)) (e :: ds.map digitChar)
  | signed {e : Char} {ds : List Nat} (negative : Bool) (he : e = 'e' ∨ e = 'E') (hne : ds ≠ [])
    (hds : ∀ d ∈ ds, d < 10) :
    SpelledExponent (some (if negative then -(ofDigits 10 ds : Int) else ofDigits 10 ds))
      (e :: (if negative then '-' else '+') :: ds.map digitChar)

/-- Apart from its exponent, a numeral is spelled in one way. -/
structure Spelled (n : Numeral) (cs : List Char) : Prop where
  wellFormed : n.WellFormed
  spelling : ∃ es, SpelledExponent n.exponent es ∧
    cs = (if n.negative then ['-'] else []) ++ (n.whole.map digitChar ++
      ((if n.fraction.isEmpty then [] else '.' :: n.fraction.map digitChar) ++ es))

theorem readMagnitude?_append (negative : Bool) {ds : List Nat} {cs : List Char} (hne : ds ≠ [])
    (hds : ∀ d ∈ ds, d < 10) (hcs : EndsDigits cs) :
    readMagnitude? negative (ds.map digitChar ++ cs) =
      some (some (if negative then -(ofDigits 10 ds : Int) else ofDigits 10 ds), cs) := by
  obtain ⟨d, ds, rfl⟩ := List.exists_cons_of_ne_nil hne
  rw [readMagnitude?, readDigits_append hds hcs]

theorem digitChar_ne_sign {d : Nat} (hd : d < 10) : digitChar d ≠ '-' ∧ digitChar d ≠ '+' := by
  revert d
  decide

theorem map_digitChar_ne_cons {ds : List Nat} {c : Char} (hne : ds ≠ [])
    (hds : ∀ d ∈ ds, digitChar d ≠ c) (cs rest : List Char) :
    ds.map digitChar ++ cs ≠ c :: rest := by
  intro heq
  obtain ⟨d, ds, rfl⟩ := List.exists_cons_of_ne_nil hne
  exact hds d (by simp) (List.cons.inj heq).1

namespace SpelledExponent

variable {e : Option Int} {es cs : List Char}

theorem of_exponentText (e : Option Int) : SpelledExponent e ((e.map exponentText).getD []) := by
  cases e with
  | none => exact .none
  | some e =>
    have hvalue := ofDigits_digitsOf (by decide : 1 < 10) e.natAbs
    have hspelled := signed (decide (e < 0)) (.inl rfl) (digitsOf_ne_nil 10 e.natAbs)
      fun d hd => lt_of_mem_digitsOf (by decide) hd
    have hsame : (if decide (e < 0) then -(e.natAbs : Int) else e.natAbs) = e := by
      split
      · rename_i hneg
        rw [decide_eq_true_eq] at hneg
        omega
      · rename_i hneg
        rw [decide_eq_true_eq] at hneg
        omega
    rw [hvalue, hsame] at hspelled
    simpa [exponentText, decimalText] using hspelled

theorem readExponent? (h : SpelledExponent e es) (hcs : Ends cs) :
    Numeral.readExponent? (es ++ cs) = some (e, cs) := by
  cases h with
  | none =>
    cases cs with
    | nil => rfl
    | cons c cs =>
      obtain ⟨-, he, hE⟩ := hcs.2 c cs rfl
      simp [Numeral.readExponent?, he, hE]
  | unsigned he hne hds =>
    have hsign := fun d hd => digitChar_ne_sign (hds d hd)
    rw [List.cons_append, Numeral.readExponent?, if_pos he]
    · exact readMagnitude?_append false hne hds hcs.1
    · exact map_digitChar_ne_cons hne (fun d hd => (hsign d hd).1) cs
    · exact map_digitChar_ne_cons hne (fun d hd => (hsign d hd).2) cs
  | signed negative he hne hds =>
    have hread := readMagnitude?_append negative hne hds hcs.1
    unfold Numeral.readExponent?
    cases negative <;> exact (if_pos he).trans hread

theorem endsDigits (h : SpelledExponent e es) (hcs : Ends cs) : EndsDigits (es ++ cs) := by
  cases h with
  | none => exact hcs.1
  | unsigned he | signed _ he =>
    refine endsDigits_cons ?_
    rcases he with rfl | rfl <;> decide

theorem ne_point (h : SpelledExponent e es) (hcs : Ends cs) (rest : List Char) :
    es ++ cs ≠ '.' :: rest := by
  intro heq
  cases h with
  | none => exact (hcs.2 '.' rest heq).1 rfl
  | unsigned he | signed _ he =>
    have hc := (List.cons.inj heq).1
    rcases he with rfl | rfl <;> exact absurd hc (by decide)

end SpelledExponent

theorem readFraction?_append {ds : List Nat} {cs : List Char} (hd : ∀ d ∈ ds, d < 10)
    (hcs : EndsDigits cs) (hpoint : ∀ rest, cs ≠ '.' :: rest) :
    readFraction? ((if ds.isEmpty then [] else '.' :: ds.map digitChar) ++ cs) = some (ds, cs) := by
  cases ds with
  | nil =>
    simp only [List.isEmpty_nil, if_true, List.nil_append]
    unfold readFraction?
    split
    · rename_i rest
      exact absurd rfl (hpoint rest)
    · rfl
  | cons d ds =>
    have hread : readDigits ((d :: ds).map digitChar ++ cs) = (d :: ds, cs) :=
      readDigits_append hd hcs
    simp only [List.isEmpty_cons, Bool.false_eq_true, if_false, List.cons_append, readFraction?,
      hread]

theorem readWhole?_append {n : Numeral} (h : n.WellFormed) {cs : List Char}
    (hcs : EndsDigits cs) : readWhole? (n.whole.map digitChar ++ cs) = some (n.whole, cs) := by
  have hread : readDigits (n.whole.map digitChar ++ cs) = (n.whole, cs) :=
    readDigits_append h.whole_lt hcs
  rw [readWhole?, hread]
  split
  · rename_i heq
    exact absurd (Prod.mk.inj heq).1 h.whole_ne_nil
  · rename_i heq
    exact absurd (Prod.mk.inj heq).1 (h.leading _ _)
  · rfl

theorem endsDigits_fraction (ds : List Nat) {cs : List Char} (hcs : EndsDigits cs) :
    EndsDigits ((if ds.isEmpty then [] else '.' :: ds.map digitChar) ++ cs) := by
  cases ds with
  | nil => exact hcs
  | cons d ds => exact endsDigits_cons (by decide)

namespace Spelled

variable {n : Numeral} {cs rest : List Char}

theorem of_render (h : n.WellFormed) : n.Spelled n.render :=
  ⟨h, _, .of_exponentText n.exponent, by simp only [render, List.append_assoc]⟩

theorem exists_cons (h : n.Spelled cs) :
    ∃ c cs', cs = c :: cs' ∧ (c = '-' ∨ isDecimalDigit c = true) := by
  obtain ⟨es, -, rfl⟩ := h.spelling
  obtain ⟨d, ds, hds⟩ := List.exists_cons_of_ne_nil h.wellFormed.whole_ne_nil
  have hd : d < 10 := h.wellFormed.whole_lt d (by simp [hds])
  cases hneg : n.negative with
  | true => exact ⟨'-', _, rfl, .inl rfl⟩
  | false => exact ⟨digitChar d, _, by rw [hds]; rfl, .inr (isDecimalDigit_digitChar hd)⟩

theorem read? (h : n.Spelled cs) (hrest : Ends rest) :
    Numeral.read? (cs ++ rest) = some (n, rest) := by
  obtain ⟨es, hes, rfl⟩ := h.spelling
  have hexponent := hes.readExponent? hrest
  have hends := hes.endsDigits hrest
  have hfraction := readFraction?_append h.wellFormed.fraction_lt hends (hes.ne_point hrest)
  have hwhole := readWhole?_append h.wellFormed (endsDigits_fraction n.fraction hends)
  have hminus := map_digitChar_ne_cons h.wellFormed.whole_ne_nil
    (fun d hd => (digitChar_ne_sign (h.wellFormed.whole_lt d hd)).1)
    ((if n.fraction.isEmpty then [] else '.' :: n.fraction.map digitChar) ++ (es ++ rest))
  simp only [List.append_assoc]
  generalize n.whole.map digitChar ++ _ = body at hwhole hminus
  cases hneg : n.negative with
  | true =>
    show Numeral.read? ('-' :: body) = _
    simp only [Numeral.read?, hwhole, hfraction, hexponent, Option.bind_eq_bind, Option.bind_some]
    rw [← hneg]
    rfl
  | false =>
    show Numeral.read? body = _
    unfold Numeral.read?
    split
    rename_i negative rest heq
    split at heq
    · exact absurd rfl (hminus _)
    · obtain ⟨rfl, rfl⟩ := Prod.mk.inj heq
      simp only [hwhole, hfraction, hexponent, Option.bind_eq_bind, Option.bind_some]
      rw [← hneg]
      rfl

end Spelled

end Numeral

namespace TextUnit

theorem toChars?_map_char (cs : List Char) : toChars? (cs.map char) = some cs := by
  induction cs with
  | nil => rfl
  | cons c cs ih => rw [List.map_cons, toChars?, ih, Option.map_some]

theorem ofNat_toNat (c : Char) (h : c.toNat < 0x20) : ofNat c.toNat = char c := by
  have hlow : ¬(0xd800 ≤ c.toNat ∧ c.toNat < 0xe000) := by omega
  rw [ofNat, if_neg hlow, Char.ofNat_toNat]

/-- A character stands for itself or is escaped; every escape by a code has four digits. -/
inductive Spelled : TextUnit → List Char → Prop where
  | plain {c : Char} (hquote : c ≠ '"') (hslash : c ≠ '\\') (hlow : ¬c.toNat < 0x20) :
    Spelled (.char c) [c]
  | named {c e : Char} (he : (c, e) ∈ Token.namedEscapes) : Spelled (.char c) ['\\', e]
  | solidus : Spelled (.char '/') ['\\', '/']
  | code {cs : List Char} {ds : List Nat} (hlen : cs.length = 4)
    (hds : cs.map hexValue? = ds.map some) :
    Spelled (.ofNat (ofDigits 16 ds)) ('\\' :: 'u' :: cs)

theorem Spelled.of_escape (c : Char) : Spelled (.char c) (Token.escape c) := by
  cases hnamed : Token.namedEscapes.lookup c with
  | some e =>
    obtain ⟨before, after, heq, -⟩ := List.lookup_eq_some_iff.mp hnamed
    rw [Token.escape, hnamed]
    exact .named (by simp [heq])
  | none =>
    simp only [Token.escape, hnamed]
    split
    · rename_i hlow
      have hlt : ∀ d ∈ paddedDigits 16 4 c.toNat, d < 16 :=
        fun d hd => lt_of_mem_paddedDigits (by decide) hd
      have hlen : ((paddedDigits 16 4 c.toNat).map digitChar).length = 4 := by
        rw [List.length_map, length_paddedDigits (by decide) (by decide) (by omega)]
      have hdigits : ((paddedDigits 16 4 c.toNat).map digitChar).map hexValue? =
          (paddedDigits 16 4 c.toNat).map some := by
        rw [List.map_map]
        exact List.map_congr_left fun d hd => hexValue?_digitChar (hlt d hd)
      have hcode := code hlen hdigits
      rwa [ofDigits_paddedDigits (by decide), ofNat_toNat c hlow] at hcode
    · rename_i hlow
      refine .plain ?_ ?_ hlow
      · rintro rfl
        simp [Token.namedEscapes] at hnamed
      · rintro rfl
        simp [Token.namedEscapes] at hnamed

end TextUnit

namespace Token

inductive Spelled : Token → List Char → Prop where
  | openBrace : Spelled openBrace ['{']
  | closeBrace : Spelled closeBrace ['}']
  | openBracket : Spelled openBracket ['[']
  | closeBracket : Spelled closeBracket [']']
  | comma : Spelled comma [',']
  | colon : Spelled colon [':']
  | null : Spelled null ['n', 'u', 'l', 'l']
  | isTrue : Spelled (bool true) ['t', 'r', 'u', 'e']
  | isFalse : Spelled (bool false) ['f', 'a', 'l', 's', 'e']
  | numeral {n : Numeral} {cs : List Char} (h : n.Spelled cs) : Spelled (number n) cs
  | quoted {us : List TextUnit} {parts : List (List Char)}
    (h : List.Forall₂ TextUnit.Spelled us parts) :
    Spelled (text ((TextUnit.toChars? us).map String.ofList)) ('"' :: parts.flatten ++ ['"'])

/-- Tokens one after the other, with blanks around them. -/
inductive AllSpelled : List Token → List Char → Prop where
  | nil : AllSpelled [] []
  | blank {c : Char} {ts : List Token} {cs : List Char} (hc : isBlank c = true)
    (h : AllSpelled ts cs) : AllSpelled ts (c :: cs)
  | cons {t : Token} {ts : List Token} {cs rest : List Char} (ht : t.Spelled cs)
    (h : AllSpelled ts rest) : AllSpelled (t :: ts) (cs ++ rest)

theorem unescape?_of_mem {p : Char × Char} (hp : p ∈ namedEscapes) :
    unescape? p.2 = some p.1 ∧ p.2 ≠ 'u' := by
  revert p
  decide

theorem readUnits?_letter {c e : Char} (he : unescape? e = some c) (hu : e ≠ 'u')
    (cs : List Char) :
    readUnits? ('\\' :: e :: cs) = (readUnits? cs).map fun r => (.char c :: r.1, r.2) := by
  rw [readUnits?]
  · simp only [he, Option.bind_eq_bind, Option.bind_some]
    cases readUnits? cs <;> rfl
  · intro a b c d rest hcode
    exact absurd hcode hu

theorem readUnits?_code {digits : List Char} {ds : List Nat} (hlen : digits.length = 4)
    (hds : digits.map hexValue? = ds.map some) (cs : List Char) :
    readUnits? ('\\' :: 'u' :: digits ++ cs) =
      (readUnits? cs).map fun r => (.ofNat (ofDigits 16 ds) :: r.1, r.2) := by
  obtain ⟨a, b, c, d, rfl⟩ : ∃ a b c d, digits = [a, b, c, d] := by
    match digits, hlen with
    | [a, b, c, d], _ => exact ⟨a, b, c, d, rfl⟩
  obtain ⟨i, j, k, l, rfl⟩ : ∃ i j k l, ds = [i, j, k, l] := by
    have hsame := congrArg List.length hds
    match ds, hsame with
    | [i, j, k, l], _ => exact ⟨i, j, k, l, rfl⟩
  simp only [List.map_cons, List.map_nil, List.cons.injEq, and_true] at hds
  obtain ⟨ha, hb, hc, hd⟩ := hds
  simp only [List.cons_append, List.nil_append, readUnits?, unit?, ha, hb, hc, hd,
    Option.bind_eq_bind, Option.bind_some]
  cases readUnits? cs <;> rfl

theorem readUnits?_plain {c : Char} (hquote : c ≠ '"') (hslash : c ≠ '\\')
    (hlow : ¬c.toNat < 0x20) (cs : List Char) :
    readUnits? (c :: cs) = (readUnits? cs).map fun r => (.char c :: r.1, r.2) := by
  rw [readUnits?]
  · rw [if_neg hlow]
    cases readUnits? cs <;> rfl
  · exact hquote
  · intro a b d e rest h
    exact absurd h hslash
  · intro e rest h
    exact absurd h hslash

theorem readUnits?_spelled {u : TextUnit} {part : List Char} (h : u.Spelled part)
    (cs : List Char) :
    readUnits? (part ++ cs) = (readUnits? cs).map fun r => (u :: r.1, r.2) := by
  cases h with
  | plain hquote hslash hlow => exact readUnits?_plain hquote hslash hlow cs
  | named he => exact readUnits?_letter (unescape?_of_mem he).1 (unescape?_of_mem he).2 cs
  | solidus => exact readUnits?_letter (by decide) (by decide) cs
  | code hlen hds => exact readUnits?_code hlen hds cs

theorem readUnits?_flatten {us : List TextUnit} {parts : List (List Char)}
    (h : List.Forall₂ TextUnit.Spelled us parts) (rest : List Char) :
    readUnits? (parts.flatten ++ '"' :: rest) = some (us, rest) := by
  induction h with
  | nil => rfl
  | cons hu _ ih =>
    rw [List.flatten_cons, List.append_assoc, readUnits?_spelled hu, ih, Option.map_some]

theorem read?_digits {c : Char} (hc : c = '-' ∨ isDecimalDigit c = true) (cs : List Char) :
    read? (c :: cs) = (Numeral.read? (c :: cs)).map fun r => (.number r.1, r.2) := by
  unfold read?
  split
  case h_11 => rfl
  all_goals
    rename_i heq
    rw [(List.cons.inj heq).1] at hc
    exact absurd hc (by decide)

/-- Behind a numeral there has to be something that ends it. -/
def Readable : Token → List Char → Prop
  | number _, cs => Numeral.Ends cs
  | _, _ => True

namespace Spelled

variable {t : Token} {cs rest : List Char}

theorem of_render (h : ∀ n, t = number n → n.WellFormed) : t.Spelled t.render := by
  cases t with
  | openBrace => exact .openBrace
  | closeBrace => exact .closeBrace
  | openBracket => exact .openBracket
  | closeBracket => exact .closeBracket
  | comma => exact .comma
  | colon => exact .colon
  | null => exact .null
  | bool b =>
    cases b with
    | false => exact .isFalse
    | true => exact .isTrue
  | number n => exact .numeral (.of_render (h n rfl))
  | text s =>
    cases s with
    | none =>
      have hdigits : ['d', '8', '0', '0'].map hexValue? = [13, 8, 0, 0].map some := by decide
      exact quoted (.cons (.code rfl hdigits) .nil)
    | some s =>
      have hunits : List.Forall₂ TextUnit.Spelled (s.toList.map .char) (s.toList.map escape) := by
        rw [List.forall₂_map_left_iff, List.forall₂_map_right_iff, List.forall₂_same]
        exact fun c _ => .of_escape c
      have hspelled := quoted hunits
      rw [TextUnit.toChars?_map_char, Option.map_some, String.ofList_toList] at hspelled
      exact hspelled

theorem exists_cons (h : t.Spelled cs) : ∃ c cs', cs = c :: cs' ∧ isBlank c = false := by
  cases h with
  | numeral h =>
    obtain ⟨c, cs', rfl, hc⟩ := h.exists_cons
    refine ⟨c, cs', rfl, ?_⟩
    simp only [isBlank, Bool.or_eq_false_iff, beq_eq_false_iff_ne]
    refine ⟨⟨⟨?_, ?_⟩, ?_⟩, ?_⟩
    all_goals
      rintro rfl
      revert hc
      decide
  | _ => exact ⟨_, _, rfl, rfl⟩

theorem read? (h : t.Spelled cs) (hrest : t.Readable rest) :
    Token.read? (cs ++ rest) = some (t, rest) := by
  cases h with
  | numeral h =>
    obtain ⟨c, cs', rfl, hc⟩ := h.exists_cons
    rw [List.cons_append, read?_digits hc, ← List.cons_append, h.read? hrest, Option.map_some]
  | @quoted us parts h =>
    show (readUnits? (parts.flatten ++ ['"'] ++ rest)).map _ = _
    rw [List.append_assoc, List.cons_append, List.nil_append, readUnits?_flatten h, Option.map_some]
  | isTrue | isFalse | null => simp only [List.cons_append, List.nil_append, Token.read?]
  | _ => rfl

theorem readAll? (h : t.Spelled cs) (hrest : t.Readable rest) :
    Token.readAll? (cs ++ rest) = (Token.readAll? rest).map (t :: ·) := by
  have hread := h.read? hrest
  obtain ⟨c, cs', rfl, hblank⟩ := h.exists_cons
  rw [List.cons_append] at hread ⊢
  rw [Token.readAll?, if_neg (by simp [hblank])]
  split
  · rename_i hnone
    simp [hnone] at hread
  · rename_i hsome
    rw [hsome] at hread
    obtain ⟨rfl, rfl⟩ := Prod.mk.inj (Option.some.inj hread)
    rfl

end Spelled

theorem readAll?_blank {c : Char} (hc : isBlank c = true) (cs : List Char) :
    readAll? (c :: cs) = readAll? cs := by
  rw [readAll?, if_pos hc]

/-- Tokens that are told apart wherever they are written: what follows a numeral ends it. -/
structure Legible (ts : List Token) : Prop where
  wellFormed : ∀ n, number n ∈ ts → n.WellFormed
  parted : ts.IsChain fun t u =>
    ∀ n, t = number n → u = comma ∨ u = closeBracket ∨ u = closeBrace

namespace Legible

theorem tail {t : Token} {ts : List Token} (h : Legible (t :: ts)) : Legible ts :=
  ⟨fun n hn => h.wellFormed n (List.mem_cons_of_mem _ hn), h.parted.tail⟩

theorem nil : Legible [] := ⟨nofun, .nil⟩

theorem cons {ts : List Token} (h : Legible ts) (t : Token) (ht : ∀ n, t ≠ number n) :
    Legible (t :: ts) where
  wellFormed n hn := by
    rcases List.mem_cons.mp hn with hn | hn
    · exact absurd hn.symm (ht n)
    · exact h.wellFormed n hn
  parted := by
    refine List.isChain_cons.mpr ⟨?_, h.parted⟩
    intro u _ n hn
    exact absurd hn (ht n)

theorem append {ts us : List Token} (h : Legible ts) {u : Token} (hu : Legible (u :: us))
    (hends : u = comma ∨ u = closeBracket ∨ u = closeBrace) : Legible (ts ++ u :: us) where
  wellFormed n hn := by
    rcases List.mem_append.mp hn with hn | hn
    · exact h.wellFormed n hn
    · exact hu.wellFormed n hn
  parted := by
    refine List.isChain_append.mpr ⟨h.parted, hu.parted, ?_⟩
    intro t _ v hv n _
    rw [List.head?_cons, Option.mem_some_iff] at hv
    rwa [← hv]

end Legible

namespace AllSpelled

variable {ts : List Token} {cs : List Char}

/-- Behind a numeral there are blanks, a token that ends it, or nothing. -/
theorem ends (h : AllSpelled ts cs)
    (hends : ∀ t, ts.head? = some t → t = .comma ∨ t = .closeBracket ∨ t = .closeBrace) :
    Numeral.Ends cs := by
  induction h with
  | nil => exact Numeral.ends_nil
  | blank hc _ _ =>
    simp only [isBlank, Bool.or_eq_true, beq_iff_eq] at hc
    rcases hc with ((rfl | rfl) | rfl) | rfl
    all_goals exact Numeral.ends_cons (by decide) (by decide)
  | @cons t ts _ _ ht _ _ =>
    rcases hends t rfl with rfl | rfl | rfl
    all_goals
      cases ht
      exact Numeral.ends_cons (by decide) (by decide)

theorem readAll? (h : AllSpelled ts cs) (hts : Legible ts) : Token.readAll? cs = some ts := by
  induction h with
  | nil => rw [Token.readAll?]
  | blank hc _ ih => rw [readAll?_blank hc, ih hts]
  | @cons t ts _ rest ht h ih =>
    have hrest : t.Readable rest := by
      cases t with
      | number n =>
        refine h.ends fun u hu => ?_
        exact (List.isChain_cons.mp hts.parted).1 u hu n rfl
      | _ => trivial
    rw [ht.readAll? hrest, ih hts.tail, Option.map_some]

theorem mark {t : Token} {c : Char} (ht : t.Spelled [c]) (h : AllSpelled ts cs) :
    AllSpelled (t :: ts) (c :: cs) := .cons ht h

theorem newline (h : AllSpelled ts cs) (depth : Nat) :
    AllSpelled ts (Json.newline depth ++ cs) := by
  have hspaces : ∀ n, AllSpelled ts (List.replicate n ' ' ++ cs) := by
    intro n
    induction n with
    | zero => exact h
    | succ n ih => exact ih.blank rfl
  exact (hspaces _).blank rfl

theorem indentTokens (h : Legible ts) (depth : Nat) :
    AllSpelled ts (Json.indentTokens depth ts) := by
  fun_induction Json.indentTokens depth ts with
  | case1 => exact .nil
  | case2 depth ts ih => exact mark .openBracket (mark .closeBracket (ih h.tail.tail))
  | case3 depth ts ih => exact mark .openBrace (mark .closeBrace (ih h.tail.tail))
  | case4 depth ts hne ih => exact mark .openBracket ((ih h.tail).newline _)
  | case5 depth ts hne ih => exact mark .openBrace ((ih h.tail).newline _)
  | case6 depth ts ih => exact (mark .closeBracket (ih h.tail)).newline _
  | case7 depth ts ih => exact (mark .closeBrace (ih h.tail)).newline _
  | case8 depth ts ih => exact mark .comma ((ih h.tail).newline _)
  | case9 depth ts ih => exact mark .colon ((ih h.tail).blank rfl)
  | case10 depth t ts _ _ _ _ _ _ _ _ ih =>
    refine .cons (.of_render fun n hn => h.wellFormed n ?_) (ih h.tail)
    rw [hn]
    exact List.mem_cons_self

end AllSpelled

end Token

end Statechart
