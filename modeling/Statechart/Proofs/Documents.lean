import Mathlib
import Statechart.Proofs.Assembly
import Statechart.Proofs.ReadBack
import Statechart.Record
import Statechart.Variant

/-! Document forms. A codec spells its values if what it writes is read back where all numbers are
finite, and is refused where one of them is not. What it reads has only finite numbers if those of
the document are in range. -/

namespace Statechart

namespace Numeral

theorem wellFormed_ofInt (n : Int) : (ofInt n).WellFormed where
  whole_ne_nil := digitsOf_ne_nil 10 n.natAbs
  whole_lt d hd := lt_of_mem_digitsOf (by decide) hd
  leading d ds := digitsOf_ne_zero_cons (by decide) n.natAbs d ds
  fraction_lt := nofun

theorem integer?_ofInt (n : Int) : (ofInt n).integer? = some n := by
  have hvalue := ofDigits_digitsOf (by decide : 1 < 10) n.natAbs
  by_cases hneg : n < 0
  · have hne : n.natAbs ≠ 0 := by omega
    simp [integer?, ofInt, hvalue, hneg, hne, abs_of_neg hneg]
  · have habs : (n.natAbs : Int) = n := by omega
    simp [integer?, ofInt, hvalue, hneg, habs]

end Numeral

/-- Read as a number of single precision, the numeral does not overflow. -/
def Token.inRange : Token → Bool
  | .number n => (Single.ofNumeral? n).all (·.isFinite)
  | _ => true

namespace Json

/-- Whether all numerals of a document are in range, wherever they stand. -/
def inRange (j : Json) : Bool := j.tokens.all Token.inRange

def textInRange (s : String) : Bool := (parse? s).all inRange

theorem mem_itemTokens {x : Json} {xs : List Json} (hx : x ∈ xs) {t : Token} (ht : t ∈ x.tokens) :
    t ∈ itemTokens xs := by
  induction xs with
  | nil => cases hx
  | cons y ys ih =>
    cases ys with
    | nil =>
      obtain rfl := List.mem_singleton.mp hx
      simpa [itemTokens] using ht
    | cons z zs =>
      rcases List.mem_cons.mp hx with rfl | hx
      · simp [itemTokens, ht]
      · simp [itemTokens, ih hx]

theorem mem_memberTokens {m : Option String × Json} {ms : List (Option String × Json)}
    (hm : m ∈ ms) {t : Token} (ht : t ∈ m.2.tokens) : t ∈ memberTokens ms := by
  induction ms with
  | nil => cases hm
  | cons n ns ih =>
    cases ns with
    | nil =>
      obtain rfl := List.mem_singleton.mp hm
      simp [memberTokens, ht]
    | cons k ks =>
      rcases List.mem_cons.mp hm with rfl | hm
      · simp [memberTokens, ht]
      · simp [memberTokens, ih hm]

theorem inRange_item {xs : List Json} (h : (array xs).inRange = true) {x : Json} (hx : x ∈ xs) :
    x.inRange = true := by
  refine List.all_eq_true.mpr fun t ht => List.all_eq_true.mp h t ?_
  simp [tokens, mem_itemTokens hx ht]

theorem inRange_member {ms : List (Option String × Json)} (h : (object ms).inRange = true)
    {m : Option String × Json} (hm : m ∈ ms) : m.2.inRange = true := by
  refine List.all_eq_true.mpr fun t ht => List.all_eq_true.mp h t ?_
  simp [tokens, mem_memberTokens hm ht]

end Json

/-- A codec whose documents are read back where `finite` holds, and refused elsewhere. Documents in
range have no other values. -/
structure Codec.Spells {α : Type} (c : Codec α) (finite : α → Bool) : Prop where
  wellFormed : ∀ a, (c.toJson a).WellFormed
  ofJson_toJson : ∀ a, c.ofJson (c.toJson a) = if finite a then some a else none
  finite_ofJson : ∀ j a, j.inRange = true → c.ofJson j = some a → finite a = true
  finite_absent : ∀ a, c.absent = some a → finite a = true

structure Fields.Spells {α : Type} (fs : Fields α) (finite : α → Bool) : Prop where
  length_toJsons : ∀ a, (fs.toJsons a).length = fs.names.length
  wellFormed : ∀ a, ∀ j ∈ fs.toJsons a, j.WellFormed
  ofSlots_toJsons : ∀ a, fs.ofSlots ((fs.toJsons a).map some) = if finite a then some a else none
  finite_ofSlots : ∀ slots a, (∀ j, some j ∈ slots → j.inRange = true) →
    fs.ofSlots slots = some a → finite a = true

structure Case.Spells {α : Type} (k : Case α) (finite : α → Bool) : Prop where
  wellFormed : ∀ a j, k.toContent a = some (some j) → j.WellFormed
  ofContent_toContent : ∀ a content, k.toContent a = some content →
    k.ofContent content = if finite a then some a else none
  finite_ofContent : ∀ content a, (∀ j, content = some j → j.inRange = true) →
    k.ofContent content = some a → finite a = true

namespace Fields.Spells

variable {α β : Type}

theorem done : Fields.done.Spells fun _ => true where
  length_toJsons _ := rfl
  wellFormed := nofun
  ofSlots_toJsons _ := rfl
  finite_ofSlots _ _ _ _ := rfl

theorem ofSlots_cons (name : String) (c : Codec α) (missing : Option α) (fs : Fields β)
    (slot : Option Json) (slots : List (Option Json)) :
    (Fields.cons name c missing fs).ofSlots (slot :: slots) =
      (match slot with
        | none => missing
        | some j => c.ofJson j).bind fun a => (fs.ofSlots slots).bind fun b => some (a, b) := by
  cases slot <;> rfl

theorem cons {c : Codec α} {fs : Fields β} {f : α → Bool} {g : β → Bool} (hc : c.Spells f)
    (hfs : fs.Spells g) (name : String) {missing : Option α}
    (hmissing : ∀ a, missing = some a → f a = true) :
    (Fields.cons name c missing fs).Spells fun r => f r.1 && g r.2 where
  length_toJsons r := by simp [Fields.cons, hfs.length_toJsons]
  wellFormed r j hj := by
    rcases List.mem_cons.mp hj with rfl | hj
    · exact hc.wellFormed r.1
    · exact hfs.wellFormed r.2 j hj
  ofSlots_toJsons r := by
    have hfirst := hc.ofJson_toJson r.1
    have hrest := hfs.ofSlots_toJsons r.2
    simp only [Fields.cons, List.map_cons, hfirst, hrest]
    cases f r.1 <;> cases g r.2 <;> rfl
  finite_ofSlots slots r hslots h := by
    cases slots with
    | nil => cases h
    | cons slot slots =>
      rw [ofSlots_cons] at h
      obtain ⟨a, ha, h⟩ := Option.bind_eq_some_iff.mp h
      obtain ⟨b, hb, h⟩ := Option.bind_eq_some_iff.mp h
      obtain rfl := Option.some.inj h
      have hfirst : f a = true := by
        cases slot with
        | none => exact hmissing a ha
        | some j => exact hc.finite_ofJson j a (hslots j (by simp)) ha
      have hrest := hfs.finite_ofSlots slots b (fun j hj => hslots j (by simp [hj])) hb
      show (f a && g b) = true
      rw [hfirst, hrest]
      rfl

theorem field {c : Codec α} {fs : Fields β} {f : α → Bool} {g : β → Bool} (hc : c.Spells f)
    (hfs : fs.Spells g) (name : String) :
    (Fields.field name c fs).Spells fun r => f r.1 && g r.2 := cons hc hfs name hc.finite_absent

theorem fieldOr {c : Codec α} {fs : Fields β} {f : α → Bool} {g : β → Bool} (hc : c.Spells f)
    (hfs : fs.Spells g) (name : String) {missing : α} (hmissing : f missing = true) :
    (Fields.fieldOr name c missing fs).Spells fun r => f r.1 && g r.2 :=
  cons hc hfs name fun _ h => Option.some.inj h ▸ hmissing

end Fields.Spells

namespace Json

theorem filter_zip_eq_nil {name : String} {names : List String} (hname : name ∉ names)
    (js : List Json) : ((names.map some).zip js).filter (·.1 == some name) = [] := by
  refine List.filter_eq_nil_iff.mpr fun m hm heq => ?_
  obtain ⟨n, hn, hkey⟩ := List.mem_map.mp (List.of_mem_zip hm).1
  have hsame : n = name := Option.some.inj (hkey.trans (eq_of_beq heq))
  exact hname (hsame ▸ hn)

/-- Under distinct names each value is found in its own slot, whatever stands under other names in
front. -/
theorem mapM_filter_zip {names : List String} (hnodup : names.Nodup) {js : List Json}
    (hlen : js.length = names.length) {front : List (Option String × Json)}
    (hfront : ∀ name ∈ names, front.filter (·.1 == some name) = []) :
    names.mapM (fun name => match (front ++ (names.map some).zip js).filter (·.1 == some name) with
      | [] => some none
      | [m] => some (some m.2)
      | _ => none) = some (js.map some) := by
  induction names generalizing js front with
  | nil =>
    obtain rfl := List.length_eq_zero_iff.mp hlen
    rfl
  | cons name names ih =>
    cases js with
    | nil => simp at hlen
    | cons j js =>
      obtain ⟨hfresh, hnodup⟩ := List.nodup_cons.mp hnodup
      have hown := hfront name (by simp)
      have hothers : ∀ other ∈ names,
          (front ++ [(some name, j)]).filter (·.1 == some other) = [] := by
        intro other hother
        have hne : name ≠ other := fun h => hfresh (h ▸ hother)
        rw [List.filter_append, hfront other (by simp [hother])]
        simp [hne]
      have hrest := ih hnodup (by simpa using hlen) hothers
      rw [List.append_assoc] at hrest
      have hmembers : front ++ ((name :: names).map some).zip (j :: js) =
          front ++ ([(some name, j)] ++ (names.map some).zip js) := rfl
      have hslot : (front ++ ([(some name, j)] ++ (names.map some).zip js)).filter
          (·.1 == some name) = [(some name, j)] := by
        rw [List.filter_append, List.filter_append, hown, filter_zip_eq_nil hfresh]
        simp
      rw [hmembers, List.mapM_cons, hslot, hrest]
      rfl

theorem slots?_zip {names : List String} (hnodup : names.Nodup) {js : List Json}
    (hlen : js.length = names.length) :
    slots? names ((names.map some).zip js) = some (js.map some) := by
  have hkeys : ((names.map some).zip js).any (·.1.isNone) = false := by
    refine List.any_eq_false.mpr fun m hm hnone => ?_
    obtain ⟨n, -, hkey⟩ := List.mem_map.mp (List.of_mem_zip hm).1
    rw [← hkey] at hnone
    cases hnone
  have hfind := @mapM_filter_zip names hnodup js hlen [] fun _ _ => rfl
  rw [slots?, hkeys]
  exact hfind

theorem mem_of_mem_slots? {names : List String} {ms : List (Option String × Json)}
    {slots : List (Option Json)} (h : slots? names ms = some slots) {j : Json}
    (hj : some j ∈ slots) : ∃ m ∈ ms, m.2 = j := by
  rw [slots?, Option.ite_none_left_eq_some] at h
  obtain ⟨-, h⟩ := h
  induction names generalizing slots with
  | nil =>
    rw [List.mapM_nil] at h
    obtain rfl := Option.some.inj h
    cases hj
  | cons name names ih =>
    rw [List.mapM_cons] at h
    obtain ⟨slot, hslot, h⟩ := Option.bind_eq_some_iff.mp h
    obtain ⟨rest, hrest, h⟩ := Option.bind_eq_some_iff.mp h
    obtain rfl := Option.some.inj h
    rcases List.mem_cons.mp hj with rfl | hj
    · split at hslot
      · cases hslot
      · rename_i m hfilter
        have hm : m ∈ ms := List.mem_of_mem_filter (hfilter ▸ List.mem_singleton_self m)
        exact ⟨m, hm, Option.some.inj (Option.some.inj hslot)⟩
      · cases hslot
    · exact ih hj hrest

end Json

namespace Codec.Spells

variable {α β : Type} {c : Codec α} {f : α → Bool}

theorem bool : Codec.bool.Spells fun _ => true where
  wellFormed b := .bool b
  ofJson_toJson _ := rfl
  finite_ofJson _ _ _ _ := rfl
  finite_absent _ _ := rfl

theorem ofJson_word (n : Numeral) : Codec.word.ofJson (.number n) = n.integer?.bind fun i =>
    if 0 ≤ i ∧ i < 2 ^ 32 then some (UInt32.ofNat i.toNat) else none := rfl

theorem word : Codec.word.Spells fun _ => true where
  wellFormed n := .number (Numeral.wellFormed_ofInt n.toNat)
  ofJson_toJson n := by
    have hlt : n.toNat < 2 ^ 32 := n.toNat_lt
    have hrange : (0 : Int) ≤ n.toNat ∧ (n.toNat : Int) < 2 ^ 32 := by omega
    have hwrite : Codec.word.toJson n = .number (.ofInt n.toNat) := rfl
    rw [hwrite, ofJson_word, Numeral.integer?_ofInt, Option.bind_some, if_pos hrange,
      Int.toNat_natCast, UInt32.ofNat_toNat]
    rfl
  finite_ofJson _ _ _ _ := rfl
  finite_absent _ _ := rfl

theorem integer : Codec.integer.Spells fun _ => true where
  wellFormed n := .number (Numeral.wellFormed_ofInt n.toInt)
  ofJson_toJson n := by
    have hrange : -2 ^ 31 ≤ n.toInt ∧ n.toInt < 2 ^ 31 := ⟨n.le_toInt, n.toInt_lt⟩
    simp only [Codec.integer, Numeral.integer?_ofInt, Option.bind_some, if_pos hrange,
      Int32.ofInt_toInt, if_true]
  finite_ofJson _ _ _ _ := rfl
  finite_absent _ _ := rfl

theorem single : Codec.single.Spells Single.isFinite where
  wellFormed x := by
    show (if x.isFinite then Json.number x.toNumeral else .null).WellFormed
    split
    · rename_i hx
      exact .number (Single.wellFormed_toNumeral hx)
    · exact .null
  ofJson_toJson x := by
    show Codec.single.ofJson (if x.isFinite then Json.number x.toNumeral else .null) = _
    split
    · rename_i hx
      exact Single.ofNumeral?_toNumeral hx
    · rfl
  finite_ofJson j x hj h := by
    cases j with
    | number n =>
      have hread : Single.ofNumeral? n = some x := h
      have hfinite : (Single.ofNumeral? n).all (·.isFinite) = true := by
        simpa [Json.inRange, Json.tokens, Token.inRange] using hj
      rwa [hread] at hfinite
    | _ => cases h
  finite_absent := nofun

theorem text : Codec.text.Spells fun _ => true where
  wellFormed s := .text (some s)
  ofJson_toJson _ := rfl
  finite_ofJson _ _ _ _ := rfl
  finite_absent _ _ := rfl

theorem spelled {render : α → String} {parse? : String → Option α}
    (h : ∀ a, parse? (render a) = some a) :
    (Codec.spelled render parse?).Spells fun _ => true where
  wellFormed a := .text (some (render a))
  ofJson_toJson a := h a
  finite_ofJson _ _ _ _ := rfl
  finite_absent _ _ := rfl

theorem ofJson_option {j : Json} (hj : j ≠ .null) :
    c.option.ofJson j = (c.ofJson j).map some := by
  cases j <;> first | rfl | exact absurd rfl hj

/-- A value may be left out only if its own document is never a null. -/
theorem option (hc : c.Spells f) (hnull : ∀ a, c.toJson a ≠ .null) :
    c.option.Spells fun o => o.all f where
  wellFormed o := by
    cases o with
    | none => exact .null
    | some a => exact hc.wellFormed a
  ofJson_toJson o := by
    cases o with
    | none => rfl
    | some a =>
      have hread : c.option.ofJson (c.toJson a) = (c.ofJson (c.toJson a)).map some :=
        ofJson_option (hnull a)
      show c.option.ofJson (c.toJson a) = _
      rw [hread, hc.ofJson_toJson, Option.all_some]
      cases f a <;> rfl
  finite_ofJson j o hj h := by
    by_cases hj' : j = .null
    · subst hj'
      obtain rfl : none = o := Option.some.inj h
      rfl
    · rw [ofJson_option hj'] at h
      obtain ⟨a, ha, rfl⟩ := Option.map_eq_some_iff.mp h
      exact hc.finite_ofJson j a hj ha
  finite_absent o h := by
    obtain rfl : none = o := Option.some.inj h
    rfl

theorem list (hc : c.Spells f) : c.list.Spells fun as => as.all f where
  wellFormed as := by
    refine .array fun j hj => ?_
    obtain ⟨a, -, rfl⟩ := List.mem_map.mp hj
    exact hc.wellFormed a
  ofJson_toJson as := by
    show (as.map c.toJson).mapM c.ofJson = _
    induction as with
    | nil => rfl
    | cons a as ih =>
      rw [List.map_cons, List.mapM_cons, hc.ofJson_toJson, ih, List.all_cons]
      cases f a <;> cases as.all f <;> rfl
  finite_ofJson j as hj h := by
    cases j with
    | array js =>
      have hread : js.mapM c.ofJson = some as := h
      have hrange : ∀ j ∈ js, j.inRange = true := fun j => Json.inRange_item hj
      clear h hj
      induction js generalizing as with
      | nil =>
        rw [List.mapM_nil] at hread
        obtain rfl := Option.some.inj hread
        rfl
      | cons j js ih =>
        rw [List.mapM_cons] at hread
        obtain ⟨a, ha, hread⟩ := Option.bind_eq_some_iff.mp hread
        obtain ⟨rest, hrest, hread⟩ := Option.bind_eq_some_iff.mp hread
        obtain rfl := Option.some.inj hread
        have hfirst := hc.finite_ofJson j a (hrange j (by simp)) ha
        have hothers := ih rest hrest fun j hj => hrange j (by simp [hj])
        rw [List.all_cons, hfirst, hothers]
        rfl
    | _ => cases h
  finite_absent := nofun

theorem along (hc : c.Spells f) {make : α → β} {parts : β → α} {g : β → Bool}
    (hmake : ∀ b, make (parts b) = b) (hfinite : ∀ a, g (make a) = f a) :
    (c.along make parts).Spells g where
  wellFormed b := hc.wellFormed (parts b)
  ofJson_toJson b := by
    have hread := hc.ofJson_toJson (parts b)
    have hparts : f (parts b) = g b := by rw [← hfinite, hmake]
    simp only [Codec.along, hread, hparts]
    cases g b with
    | false => rfl
    | true => simp [hmake]
  finite_ofJson j b hj h := by
    obtain ⟨a, ha, rfl⟩ := Option.map_eq_some_iff.mp h
    rw [hfinite]
    exact hc.finite_ofJson j a hj ha
  finite_absent b h := by
    obtain ⟨a, ha, rfl⟩ := Option.map_eq_some_iff.mp h
    rw [hfinite]
    exact hc.finite_absent a ha

theorem record {fs : Fields α} (hfs : fs.Spells f) (hnodup : fs.names.Nodup) (short : Bool) :
    (Codec.record fs short).Spells f where
  wellFormed a := by
    refine .object fun m hm => ?_
    exact hfs.wellFormed a m.2 (List.of_mem_zip hm).2
  ofJson_toJson a := by
    have hslots := Json.slots?_zip hnodup (hfs.length_toJsons a)
    show (Json.slots? fs.names ((fs.names.map some).zip (fs.toJsons a))).bind fs.ofSlots = _
    rw [hslots, Option.bind_some, hfs.ofSlots_toJsons]
  finite_ofJson j a hj h := by
    cases j with
    | object ms =>
      obtain ⟨slots, hslots, ha⟩ := Option.bind_eq_some_iff.mp h
      refine hfs.finite_ofSlots slots a (fun j hslot => ?_) ha
      obtain ⟨m, hm, rfl⟩ := Json.mem_of_mem_slots? hslots hslot
      exact Json.inRange_member hj hm
    | array js =>
      obtain ⟨-, ha⟩ := Option.ite_none_right_eq_some.mp h
      refine hfs.finite_ofSlots _ a (fun j hslot => ?_) ha
      have hmem : j ∈ js := by simpa using hslot
      exact Json.inRange_item hj hmem
    | _ => cases h
  finite_absent := nofun

theorem find?_name {cases : List (Case α)} (hnodup : (cases.map (·.name)).Nodup) {k : Case α}
    (hk : k ∈ cases) : cases.find? (·.name == k.name) = some k := by
  induction cases with
  | nil => cases hk
  | cons l ls ih =>
    obtain ⟨hfresh, hnodup⟩ := List.nodup_cons.mp hnodup
    rcases List.mem_cons.mp hk with rfl | hk
    · rw [List.find?_cons_of_pos (by simp)]
    · have hne : l.name ≠ k.name := fun h => by
        exact hfresh (List.mem_map.mpr ⟨k, hk, h.symm⟩)
      rw [List.find?_cons_of_neg (by simpa using hne), ih hnodup hk]

theorem exists_toJson {cases : List (Case α)} {a : α}
    (h : ∃ k ∈ cases, (k.toContent a).isSome) :
    ∃ k ∈ cases, k.toJson? a = some ((variants cases).toJson a) := by
  have hsome : (cases.findSome? (·.toJson? a)).isSome := by
    obtain ⟨k, hk, hcontent⟩ := h
    exact List.findSome?_isSome_iff.mpr ⟨k, hk, by simpa [Case.toJson?] using hcontent⟩
  obtain ⟨j, hj⟩ := Option.isSome_iff_exists.mp hsome
  obtain ⟨k, hk, hwrite⟩ := List.exists_of_findSome?_eq_some hj
  exact ⟨k, hk, by simp [hwrite, Codec.variants, hj]⟩

theorem variants {cases : List (Case α)} (h : ∀ k ∈ cases, k.Spells f)
    (hcover : ∀ a, ∃ k ∈ cases, (k.toContent a).isSome)
    (hnodup : (cases.map (·.name)).Nodup) : (Codec.variants cases).Spells f where
  wellFormed a := by
    obtain ⟨k, hk, hwrite⟩ := exists_toJson (hcover a)
    obtain ⟨content, hcontent, hj⟩ := Option.map_eq_some_iff.mp hwrite
    rw [← hj]
    cases content with
    | none => exact .text _
    | some j =>
      have hwell := (h k hk).wellFormed a j hcontent
      exact .object (by simpa using hwell)
  ofJson_toJson a := by
    obtain ⟨k, hk, hwrite⟩ := exists_toJson (hcover a)
    obtain ⟨content, hcontent, hj⟩ := Option.map_eq_some_iff.mp hwrite
    have hread := (h k hk).ofContent_toContent a content hcontent
    have hfind := find?_name hnodup hk
    rw [← hj]
    cases content with
    | none => simp only [Codec.variants, hfind, Option.bind_some, hread]
    | some j => simp only [Codec.variants, hfind, Option.bind_some, hread]
  finite_ofJson j a hj hread := by
    obtain ⟨name, content, hcontent, hread⟩ : ∃ name content,
        (∀ i, content = some i → i.inRange = true) ∧
          (cases.find? (·.name == name)).bind (·.ofContent content) = some a := by
      simp only [Codec.variants] at hread
      split at hread
      · exact ⟨_, none, nofun, hread⟩
      · refine ⟨_, some _, fun i hi => ?_, hread⟩
        obtain rfl := Option.some.inj hi
        exact Json.inRange_member hj (List.mem_singleton_self _)
      · cases hread
    obtain ⟨k, hk, hread⟩ := Option.bind_eq_some_iff.mp hread
    exact (h k (List.mem_of_find?_eq_some hk)).finite_ofContent content a hcontent hread
  finite_absent := nofun

end Codec.Spells

namespace Case.Spells

variable {α β : Type} {f : α → Bool}

theorem bare [DecidableEq α] (name : String) {a : α} (ha : f a = true) :
    (Case.bare name a).Spells f where
  wellFormed b j h := by
    simp [Case.bare] at h
  ofContent_toContent b content h := by
    simp only [Case.bare, Option.ite_none_right_eq_some, Option.some.injEq] at h
    obtain ⟨rfl, rfl⟩ := h
    simp [Case.bare, ha]
  finite_ofContent content b _ h := by
    obtain rfl : a = b := by
      simp only [Case.bare] at h
      split at h
      · exact Option.some.inj h
      · exact Option.some.inj h
      · cases h
    exact ha

theorem holding {c : Codec β} {g : β → Bool} (hc : c.Spells g) (name : String) {make : β → α}
    {content? : α → Option β} (h : ∀ a b, content? a = some b → make b = a)
    (hfinite : ∀ b, f (make b) = g b) : (Case.holding name c make content?).Spells f where
  wellFormed a j hj := by
    simp only [Case.holding, Option.map_eq_some_iff, Option.some.injEq] at hj
    obtain ⟨b, -, rfl⟩ := hj
    exact hc.wellFormed b
  ofContent_toContent a content hcontent := by
    simp only [Case.holding, Option.map_eq_some_iff] at hcontent
    obtain ⟨b, hb, rfl⟩ := hcontent
    obtain rfl := h a b hb
    simp only [Case.holding, hc.ofJson_toJson, hfinite]
    cases g b <;> rfl
  finite_ofContent content a hcontent h := by
    cases content with
    | none => cases h
    | some j =>
      obtain ⟨b, hb, rfl⟩ := Option.map_eq_some_iff.mp h
      rw [hfinite]
      exact hc.finite_ofJson j b (hcontent j rfl) hb

end Case.Spells

theorem Codec.Spells.names {α : Type} [DecidableEq α] {entries : List (String × α)}
    (hcover : ∀ a, a ∈ entries.map (·.2)) (hnodup : (entries.map (·.1)).Nodup) :
    (Codec.names entries).Spells fun _ => true := by
  refine .variants (fun k hk => ?_) (fun a => ?_) ?_
  · obtain ⟨e, -, rfl⟩ := List.mem_map.mp hk
    exact .bare e.1 rfl
  · obtain ⟨e, he, rfl⟩ := List.mem_map.mp (hcover a)
    exact ⟨_, List.mem_map_of_mem he, by simp [Case.bare]⟩
  · simpa [Case.bare, Function.comp_def] using hnodup

end Statechart
