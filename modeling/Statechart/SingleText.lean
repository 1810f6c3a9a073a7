import Statechart.Numeral

/-! The two spellings of single precision numbers: numerals of documents, and plain text for
readers. -/

namespace Statechart

namespace Single

/-- Leading digits with exponents from `-6` to `12` are written without an exponent and keep one
digit behind the point; halfway cases take the even digits. -/
def toNumeral (x : Single) : Numeral :=
  if x.magnitude.coefficient = 0 then ⟨x.isNegative, [0], [0], none⟩
  else
    let (ds, e) := (x.shortest .even).digits
    if 12 < e ∨ e < -6 then ⟨x.isNegative, ds.take 1, ds.drop 1, some e⟩
    else if e < 0 then
      ⟨x.isNegative, [0], List.replicate (e.natAbs - 1) 0 ++ ds, none⟩
    else
      let w := e.toNat + 1
      let whole := ds.take w ++ List.replicate (w - ds.length) 0
      ⟨x.isNegative, whole, if ds.length ≤ w then [0] else ds.drop w, none⟩

/-- The shortest digits without an exponent, however long; halfway cases go up. -/
def toPlain (x : Single) : List Char :=
  let sign := if x.isNegative then ['-'] else []
  if x.isNaN then "NaN".toList
  else if !x.isFinite then sign ++ "inf".toList
  else if x.magnitude.coefficient = 0 then sign ++ ['0']
  else
    let (ds, e) := (x.shortest .up).digits
    let cs := ds.map digitChar
    if e < 0 then sign ++ '0' :: '.' :: List.replicate (e.natAbs - 1) '0' ++ cs
    else
      let w := e.toNat + 1
      if cs.length ≤ w then sign ++ cs ++ List.replicate (w - cs.length) '0'
      else sign ++ cs.take w ++ '.' :: cs.drop w

end Single

end Statechart
