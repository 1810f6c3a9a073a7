import Statechart.Numeral

/-! The tokens of a document. A quoted text may spell UTF-16 surrogates by escapes; it denotes a
string when they come in pairs. -/

namespace Statechart

inductive Token where
  | openBrace
  | closeBrace
  | openBracket
  | closeBracket
  | comma
  | colon
  | null
  | bool (value : Bool)
  | number (value : Numeral)
  | text (value : Option String)
  deriving DecidableEq

/-- What one character or escape of a quoted text stands for. -/
inductive TextUnit where
  | char (c : Char)
  | surrogate (value : Nat)

namespace TextUnit

def ofNat (n : Nat) : TextUnit :=
  if 0xd800 ≤ n ∧ n < 0xe000 then surrogate n else char (Char.ofNat n)

/-- The characters of a text, if every leading surrogate is followed by a trailing one and every
trailing surrogate follows a leading one. -/
def toChars? : List TextUnit → Option (List Char)
  | [] => some []
  | char c :: us => (toChars? us).map (c :: ·)
  | surrogate a :: surrogate b :: us =>
    if a < 0xdc00 ∧ 0xdc00 ≤ b then
      (toChars? us).map (Char.ofNat (0x10000 + (a - 0xd800) * 0x400 + (b - 0xdc00)) :: ·)
    else none
  | surrogate _ :: _ => none

end TextUnit

namespace Token

/-- The characters with an escape of their own, each with the letter of its escape. -/
def namedEscapes : List (Char × Char) :=
  [('"', '"'), ('\\', '\\'), (Char.ofNat 8, 'b'), (Char.ofNat 12, 'f'), ('\n', 'n'), ('\r', 'r'),
    ('\t', 't')]

def escape (c : Char) : List Char :=
  match namedEscapes.lookup c with
  | some e => ['\\', e]
  | none =>
    if c.toNat < 0x20 then ['\\', 'u'] ++ (paddedDigits 16 4 c.toNat).map digitChar else [c]

def unescape? (e : Char) : Option Char :=
  if e = '/' then some '/' else (namedEscapes.find? (·.2 == e)).map (·.1)

def unit? (a b c d : Char) : Option TextUnit := do
  return .ofNat (ofDigits 16 [← hexValue? a, ← hexValue? b, ← hexValue? c, ← hexValue? d])

/-- Reads a quoted text from behind its opening quote. -/
def readUnits? : List Char → Option (List TextUnit × List Char)
  | [] => none
  | '"' :: cs => some ([], cs)
  | '\\' :: 'u' :: a :: b :: c :: d :: cs => do
    let u ← unit? a b c d
    let (us, rest) ← readUnits? cs
    return (u :: us, rest)
  | '\\' :: e :: cs => do
    let c ← unescape? e
    let (us, rest) ← readUnits? cs
    return (.char c :: us, rest)
  | c :: cs =>
    if c.toNat < 0x20 then none
    else do
      let (us, rest) ← readUnits? cs
      return (.char c :: us, rest)

def isBlank (c : Char) : Bool := c == ' ' || c == '\n' || c == '\r' || c == '\t'

/-- Reads the token at the front of a text. -/
def read? : List Char → Option (Token × List Char)
  | '{' :: cs => some (openBrace, cs)
  | '}' :: cs => some (closeBrace, cs)
  | '[' :: cs => some (openBracket, cs)
  | ']' :: cs => some (closeBracket, cs)
  | ',' :: cs => some (comma, cs)
  | ':' :: cs => some (colon, cs)
  | 'n' :: 'u' :: 'l' :: 'l' :: cs => some (null, cs)
  | 't' :: 'r' :: 'u' :: 'e' :: cs => some (bool true, cs)
  | 'f' :: 'a' :: 'l' :: 's' :: 'e' :: cs => some (bool false, cs)
  | '"' :: cs =>
    (readUnits? cs).map fun r => (text ((TextUnit.toChars? r.1).map String.ofList), r.2)
  | cs => (Numeral.read? cs).map fun r => (number r.1, r.2)

def renderText (s : String) : List Char := '"' :: s.toList.flatMap escape ++ ['"']

/-- The spelling of a token. A text that denotes no string is spelled as a lone surrogate. -/
def render : Token → List Char
  | openBrace => ['{']
  | closeBrace => ['}']
  | openBracket => ['[']
  | closeBracket => [']']
  | comma => [',']
  | colon => [':']
  | null => "null".toList
  | bool true => "true".toList
  | bool false => "false".toList
  | number n => n.render
  | text (some s) => renderText s
  | text none => "\"\\ud800\"".toList

theorem readUnits?_length {cs rest : List Char} {us : List TextUnit}
    (h : readUnits? cs = some (us, rest)) : rest.length < cs.length := by
  fun_induction readUnits? cs generalizing us <;> simp_all [Option.bind_eq_some_iff] <;> grind

theorem read?_length {cs rest : List Char} {t : Token}
    (h : read? cs = some (t, rest)) : rest.length < cs.length := by
  unfold read? at h
  split at h
  case h_10 =>
    obtain ⟨⟨us, r⟩, hu, ht⟩ := Option.map_eq_some_iff.mp h
    have := readUnits?_length hu
    simp_all
    omega
  case h_11 =>
    obtain ⟨⟨n, r⟩, hn, ht⟩ := Option.map_eq_some_iff.mp h
    have := Numeral.read?_length hn
    simp_all
  all_goals
    simp only [Option.some.injEq, Prod.mk.injEq] at h
    simp only [← h.2, List.length_cons]
    omega

def readAll? (cs : List Char) : Option (List Token) :=
  match cs with
  | [] => some []
  | c :: cs =>
    if isBlank c then readAll? cs
    else
      match _h : read? (c :: cs) with
      | none => none
      | some (t, rest) => (readAll? rest).map (t :: ·)
termination_by cs.length
decreasing_by
  · simp
  · exact read?_length _h

end Token

end Statechart
