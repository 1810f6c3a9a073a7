import Statechart.Token

/-! Documents as trees: assembling a tree from its tokens, and spelling it on one line or
indented. -/

namespace Statechart

/-- A document. A text or key that denotes no string is kept as `none`. -/
inductive Json where
  | null
  | bool (value : Bool)
  | number (value : Numeral)
  | text (value : Option String)
  | array (items : List Json)
  | object (members : List (Option String × Json))

namespace Json

mutual

def tokens : Json → List Token
  | null => [.null]
  | bool b => [.bool b]
  | number n => [.number n]
  | text s => [.text s]
  | array xs => .openBracket :: itemTokens xs ++ [.closeBracket]
  | object ms => .openBrace :: memberTokens ms ++ [.closeBrace]

def itemTokens : List Json → List Token
  | [] => []
  | [x] => tokens x
  | x :: xs => tokens x ++ .comma :: itemTokens xs

def memberTokens : List (Option String × Json) → List Token
  | [] => []
  | [(k, x)] => .text k :: .colon :: tokens x
  | (k, x) :: ms => .text k :: .colon :: tokens x ++ .comma :: memberTokens ms

end

/-- A container whose last item is being read, with the items before it in reverse. -/
inductive Frame where
  | array (items : List Json)
  | object (members : List (Option String × Json)) (key : Option String)

/-- What the tokens read so far call for inside the innermost container. -/
inductive Pending where
  | value
  | item
  | key (members : List (Option String × Json))
  | keyOrClose
  | colon (members : List (Option String × Json)) (key : Option String)
  | done (value : Json)

structure Assembly where
  stack : List Frame
  pending : Pending

namespace Assembly

def start : Assembly := ⟨[], .value⟩

def beginValue (stack : List Frame) : Token → Option Assembly
  | .null => some ⟨stack, .done .null⟩
  | .bool b => some ⟨stack, .done (.bool b)⟩
  | .number n => some ⟨stack, .done (.number n)⟩
  | .text s => some ⟨stack, .done (.text s)⟩
  | .openBracket => some ⟨.array [] :: stack, .item⟩
  | .openBrace => some ⟨stack, .keyOrClose⟩
  | _ => none

def afterValue (v : Json) : List Frame → Token → Option Assembly
  | .array xs :: stack, .comma => some ⟨.array (v :: xs) :: stack, .value⟩
  | .array xs :: stack, .closeBracket => some ⟨stack, .done (.array (v :: xs).reverse)⟩
  | .object ms k :: stack, .comma => some ⟨stack, .key ((k, v) :: ms)⟩
  | .object ms k :: stack, .closeBrace => some ⟨stack, .done (.object ((k, v) :: ms).reverse)⟩
  | _, _ => none

def step (a : Assembly) (t : Token) : Option Assembly :=
  match a.pending, t with
  | .value, t => beginValue a.stack t
  | .item, .closeBracket =>
    match a.stack with
    | .array [] :: stack => some ⟨stack, .done (.array [])⟩
    | _ => none
  | .item, t => beginValue a.stack t
  | .key ms, .text k => some ⟨a.stack, .colon ms k⟩
  | .keyOrClose, .text k => some ⟨a.stack, .colon [] k⟩
  | .keyOrClose, .closeBrace => some ⟨a.stack, .done (.object [])⟩
  | .colon ms k, .colon => some ⟨.object ms k :: a.stack, .value⟩
  | .done v, t => afterValue v a.stack t
  | _, _ => none

def result? (a : Assembly) : Option Json :=
  match a.stack, a.pending with
  | [], .done v => some v
  | _, _ => none

end Assembly

def ofTokens? (ts : List Token) : Option Json :=
  (ts.foldlM Assembly.step Assembly.start).bind Assembly.result?

def parse? (s : String) : Option Json := (Token.readAll? s.toList).bind ofTokens?

def compact (j : Json) : String := String.ofList (j.tokens.flatMap Token.render)

def newline (depth : Nat) : List Char := '\n' :: List.replicate (2 * depth) ' '

/-- Spells tokens with every item and member on a line of its own, two columns deeper than its
container. Empty containers stay closed. -/
def indentTokens (depth : Nat) : List Token → List Char
  | [] => []
  | .openBracket :: .closeBracket :: ts => '[' :: ']' :: indentTokens depth ts
  | .openBrace :: .closeBrace :: ts => '{' :: '}' :: indentTokens depth ts
  | .openBracket :: ts => '[' :: newline (depth + 1) ++ indentTokens (depth + 1) ts
  | .openBrace :: ts => '{' :: newline (depth + 1) ++ indentTokens (depth + 1) ts
  | .closeBracket :: ts => newline (depth - 1) ++ ']' :: indentTokens (depth - 1) ts
  | .closeBrace :: ts => newline (depth - 1) ++ '}' :: indentTokens (depth - 1) ts
  | .comma :: ts => ',' :: newline depth ++ indentTokens depth ts
  | .colon :: ts => ':' :: ' ' :: indentTokens depth ts
  | t :: ts => t.render ++ indentTokens depth ts

def indented (j : Json) : String := String.ofList (indentTokens 0 j.tokens)

end Json

end Statechart
