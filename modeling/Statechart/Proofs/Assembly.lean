import Statechart.Proofs.Lexing

/-! Trees from tokens: the tokens of a document are assembled to that document, so that its indented
text is parsed back. -/

namespace Statechart

namespace Json

/-- Documents all of whose numerals are well formed. -/
inductive WellFormed : Json → Prop where
  | null : WellFormed .null
  | bool (b : Bool) : WellFormed (.bool b)
  | number {n : Numeral} (h : n.WellFormed) : WellFormed (.number n)
  | text (s : Option String) : WellFormed (.text s)
  | array {xs : List Json} (h : ∀ x ∈ xs, WellFormed x) : WellFormed (.array xs)
  | object {ms : List (Option String × Json)} (h : ∀ m ∈ ms, WellFormed m.2) :
    WellFormed (.object ms)

theorem exists_tokens_eq_cons (j : Json) : ∃ t ts, j.tokens = t :: ts ∧ t ≠ .closeBracket := by
  cases j
  all_goals
    rw [tokens]
    refine ⟨_, _, rfl, ?_⟩
    nofun

theorem exists_itemTokens_eq (x : Json) (xs : List Json) :
    ∃ ts, itemTokens (x :: xs) = x.tokens ++ ts := by
  cases xs with
  | nil => exact ⟨[], by rw [itemTokens, List.append_nil]⟩
  | cons y ys => exact ⟨_, by rw [itemTokens]; nofun⟩

theorem exists_memberTokens_eq (k : Option String) (x : Json)
    (ms : List (Option String × Json)) :
    ∃ ts, memberTokens ((k, x) :: ms) = .text k :: .colon :: ts := by
  cases ms with
  | nil => exact ⟨_, by rw [memberTokens]⟩
  | cons m ms => exact ⟨_, by rw [memberTokens, List.cons_append, List.cons_append]; nofun⟩

namespace Assembly

/-- An item is read like any other value, as no value begins with a closing bracket. -/
theorem foldlM_item (x : Json) (xs : List Json) (ts : List Token) (stack : List Frame) :
    (itemTokens (x :: xs) ++ ts).foldlM step ⟨stack, .item⟩ =
      (itemTokens (x :: xs) ++ ts).foldlM step ⟨stack, .value⟩ := by
  obtain ⟨rest, hitems⟩ := exists_itemTokens_eq x xs
  obtain ⟨t, us, heq, hne⟩ := exists_tokens_eq_cons x
  have hstep : step ⟨stack, .item⟩ t = step ⟨stack, .value⟩ t := by
    cases t <;> first | rfl | exact absurd rfl hne
  rw [hitems, heq, List.cons_append, List.cons_append, List.foldlM_cons, List.foldlM_cons, hstep]

theorem foldlM_key (m : Option String × Json) (ms : List (Option String × Json))
    (ts : List Token) (stack : List Frame) :
    (memberTokens (m :: ms) ++ ts).foldlM step ⟨stack, .keyOrClose⟩ =
      (memberTokens (m :: ms) ++ ts).foldlM step ⟨stack, .key []⟩ := by
  obtain ⟨rest, hmembers⟩ := exists_memberTokens_eq m.1 m.2 ms
  rw [hmembers]
  rfl

mutual

theorem foldlM_tokens (j : Json) (ts : List Token) (stack : List Frame) :
    (j.tokens ++ ts).foldlM step ⟨stack, .value⟩ = ts.foldlM step ⟨stack, .done j⟩ := by
  match j with
  | .null | .bool _ | .number _ | .text _ => rfl
  | .array [] => rfl
  | .array (x :: xs) =>
    have hitems := foldlM_itemTokens (x :: xs) (by simp) [] ts stack
    rw [tokens, List.cons_append, List.cons_append, List.foldlM_cons, List.append_assoc]
    show (itemTokens (x :: xs) ++ .closeBracket :: ts).foldlM step ⟨.array [] :: stack, .item⟩ = _
    rw [foldlM_item, hitems]
    rfl
  | .object [] => rfl
  | .object (m :: ms) =>
    have hmembers := foldlM_memberTokens (m :: ms) (by simp) [] ts stack
    rw [tokens, List.cons_append, List.cons_append, List.foldlM_cons, List.append_assoc]
    show (memberTokens (m :: ms) ++ .closeBrace :: ts).foldlM step ⟨stack, .keyOrClose⟩ = _
    rw [foldlM_key, hmembers]
    rfl

theorem foldlM_itemTokens (xs : List Json) (hne : xs ≠ []) (before : List Json) (ts : List Token)
    (stack : List Frame) :
    (itemTokens xs ++ .closeBracket :: ts).foldlM step ⟨.array before :: stack, .value⟩ =
      ts.foldlM step ⟨stack, .done (.array (before.reverse ++ xs))⟩ := by
  match xs with
  | [] => exact absurd rfl hne
  | [x] =>
    rw [itemTokens, foldlM_tokens x, List.foldlM_cons]
    show ts.foldlM step ⟨stack, .done (.array (x :: before).reverse)⟩ = _
    rw [List.reverse_cons]
  | x :: y :: ys =>
    have hrest := foldlM_itemTokens (y :: ys) (by simp) (x :: before) ts stack
    rw [itemTokens, List.append_assoc, foldlM_tokens x, List.cons_append, List.foldlM_cons]
    · show (itemTokens (y :: ys) ++ .closeBracket :: ts).foldlM step
        ⟨.array (x :: before) :: stack, .value⟩ = _
      rw [hrest, List.reverse_cons, List.append_assoc]
      rfl
    · nofun

theorem foldlM_memberTokens (ms : List (Option String × Json)) (hne : ms ≠ [])
    (before : List (Option String × Json)) (ts : List Token) (stack : List Frame) :
    (memberTokens ms ++ .closeBrace :: ts).foldlM step ⟨stack, .key before⟩ =
      ts.foldlM step ⟨stack, .done (.object (before.reverse ++ ms))⟩ := by
  match ms with
  | [] => exact absurd rfl hne
  | [(k, x)] =>
    have hvalue := foldlM_tokens x (.closeBrace :: ts) (.object before k :: stack)
    rw [memberTokens, List.cons_append, List.cons_append, List.foldlM_cons]
    show (x.tokens ++ .closeBrace :: ts).foldlM step ⟨.object before k :: stack, .value⟩ = _
    rw [hvalue, List.foldlM_cons]
    show ts.foldlM step ⟨stack, .done (.object ((k, x) :: before).reverse)⟩ = _
    rw [List.reverse_cons]
  | (k, x) :: n :: ns =>
    have hvalue := foldlM_tokens x (.comma :: memberTokens (n :: ns) ++ .closeBrace :: ts)
      (.object before k :: stack)
    have hrest := foldlM_memberTokens (n :: ns) (by simp) ((k, x) :: before) ts stack
    rw [memberTokens, List.cons_append, List.cons_append, List.cons_append, List.cons_append,
      List.foldlM_cons, List.append_assoc]
    · show (x.tokens ++ (.comma :: memberTokens (n :: ns) ++ .closeBrace :: ts)).foldlM step
        ⟨.object before k :: stack, .value⟩ = _
      rw [hvalue, List.cons_append, List.foldlM_cons]
      show (memberTokens (n :: ns) ++ .closeBrace :: ts).foldlM step
        ⟨stack, .key ((k, x) :: before)⟩ = _
      rw [hrest, List.reverse_cons, List.append_assoc]
      rfl
    · nofun

end

end Assembly

theorem ofTokens?_tokens (j : Json) : ofTokens? j.tokens = some j := by
  have hrun := Assembly.foldlM_tokens j [] []
  rw [List.append_nil] at hrun
  rw [ofTokens?, Assembly.start, hrun]
  rfl

theorem legible_itemTokens {xs : List Json} (h : ∀ x ∈ xs, Token.Legible x.tokens) :
    Token.Legible (itemTokens xs) := by
  induction xs with
  | nil => exact .nil
  | cons x xs ih =>
    cases xs with
    | nil =>
      rw [itemTokens]
      exact h x (by simp)
    | cons y ys =>
      have hrest := ih fun z hz => h z (List.mem_cons_of_mem _ hz)
      rw [itemTokens]
      · exact (h x (by simp)).append (hrest.cons .comma nofun) (.inl rfl)
      · nofun

theorem legible_memberTokens {ms : List (Option String × Json)}
    (h : ∀ m ∈ ms, Token.Legible m.2.tokens) : Token.Legible (memberTokens ms) := by
  induction ms with
  | nil => exact .nil
  | cons m ms ih =>
    obtain ⟨k, x⟩ := m
    have hx : Token.Legible x.tokens := h (k, x) (by simp)
    cases ms with
    | nil =>
      rw [memberTokens]
      exact (hx.cons .colon nofun).cons (.text k) nofun
    | cons n ns =>
      have hrest := ih fun m hm => h m (List.mem_cons_of_mem _ hm)
      have hvalue := hx.append (hrest.cons .comma nofun) (.inl rfl)
      rw [memberTokens]
      · exact (hvalue.cons .colon nofun).cons (.text k) nofun
      · nofun

theorem WellFormed.legible {j : Json} (h : j.WellFormed) : Token.Legible j.tokens := by
  induction h with
  | null => exact Token.Legible.nil.cons .null nofun
  | bool b => exact Token.Legible.nil.cons (.bool b) nofun
  | text s => exact Token.Legible.nil.cons (.text s) nofun
  | number h =>
    refine ⟨?_, .singleton _⟩
    intro m hm
    rw [tokens, List.mem_singleton, Token.number.injEq] at hm
    rwa [hm]
  | array h ih =>
    have hclose := Token.Legible.nil.cons .closeBracket nofun
    rw [tokens]
    exact ((legible_itemTokens ih).cons .openBracket nofun).append hclose (.inr (.inl rfl))
  | object h ih =>
    have hclose := Token.Legible.nil.cons .closeBrace nofun
    rw [tokens]
    exact ((legible_memberTokens ih).cons .openBrace nofun).append hclose (.inr (.inr rfl))

/-- The text of a document, in any of its spellings. -/
structure Spelled (j : Json) (s : String) : Prop where
  wellFormed : j.WellFormed
  tokens : Token.AllSpelled j.tokens s.toList

theorem Spelled.parse? {j : Json} {s : String} (h : j.Spelled s) : Json.parse? s = some j := by
  have hread := h.tokens.readAll? h.wellFormed.legible
  rw [Json.parse?, hread, Option.bind_some, ofTokens?_tokens]

theorem WellFormed.spelled_indented {j : Json} (h : j.WellFormed) : j.Spelled j.indented := by
  refine ⟨h, ?_⟩
  rw [indented, String.toList_ofList]
  exact .indentTokens h.legible 0

theorem parse?_indented {j : Json} (h : j.WellFormed) : parse? j.indented = some j :=
  h.spelled_indented.parse?

end Json

end Statechart
