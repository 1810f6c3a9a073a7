import Mathlib.Algebra.Group.Nat.Defs
import Mathlib.Data.List.Basic
import Statechart.Record
import Statechart.Variant

/-! Byte forms. A codec packs its values if what it writes is read back whatever follows, and if
reading never depends on the bytes behind those that it takes. -/

namespace Statechart

/-- A reader that takes the same from the front of a longer text of bytes. -/
def Steady {α : Type} (read : List UInt8 → Option (α × List UInt8)) : Prop :=
  ∀ ⦃bs rest : List UInt8⦄ ⦃a : α⦄, read bs = some (a, rest) →
    ∀ more, read (bs ++ more) = some (a, rest ++ more)

namespace Steady

variable {α β : Type}

theorem pure (a : α) : Steady fun bs => some (a, bs) := by
  intro bs rest b h more
  obtain ⟨rfl, rfl⟩ : a = b ∧ bs = rest := by simpa using h
  rfl

theorem fail : Steady fun _ => (none : Option (α × List UInt8)) := nofun

theorem bind {f : List UInt8 → Option (α × List UInt8)}
    {g : α → List UInt8 → Option (β × List UInt8)} (first : Steady f)
    (second : ∀ a, Steady (g a)) : Steady fun bs => (f bs).bind fun r => g r.1 r.2 := by
  intro bs rest b h more
  obtain ⟨⟨a, mid⟩, ha, hb⟩ := Option.bind_eq_some_iff.mp h
  show (f (bs ++ more)).bind _ = _
  rw [first ha more, Option.bind_some]
  exact second a hb more

theorem map {read : List UInt8 → Option (α × List UInt8)} (f : α → β) (h : Steady read) :
    Steady fun bs => (read bs).map fun r => (f r.1, r.2) := by
  simpa [Option.map_eq_bind, Function.comp_def] using h.bind fun a => pure (f a)

theorem filterMap {read : List UInt8 → Option (α × List UInt8)} (f : α → Option β)
    (h : Steady read) :
    Steady fun bs => (read bs).bind fun r => (f r.1).bind fun b => some (b, r.2) := by
  refine h.bind (g := fun a bs => (f a).bind fun b => some (b, bs)) fun a => ?_
  cases f a with
  | none => exact fail
  | some b => exact pure b

end Steady

@[simp] theorem length_littleEndian (width n : Nat) : (littleEndian width n).length = width := by
  induction width generalizing n with
  | zero => rfl
  | succ width ih => simp [littleEndian, ih]

theorem ofLittleEndian_littleEndian {width n : Nat} (h : n < 256 ^ width) :
    ofLittleEndian (littleEndian width n) = n := by
  induction width generalizing n with
  | zero =>
    have hzero : n = 0 := by simpa using h
    simp [littleEndian, ofLittleEndian, hzero]
  | succ width ih =>
    have hdiv : n / 256 < 256 ^ width := by
      rw [Nat.pow_succ] at h
      omega
    have hlow : (UInt8.ofNat n).toNat = n % 256 := rfl
    rw [littleEndian, ofLittleEndian, ih hdiv, hlow]
    omega

theorem steady_splitBytes? (width : Nat) : Steady (splitBytes? width) := by
  intro bs rest front h more
  simp only [splitBytes?, Option.ite_none_right_eq_some, Option.some.injEq, Prod.mk.injEq] at h
  obtain ⟨hle, rfl, rfl⟩ := h
  have hmore : width ≤ (bs ++ more).length := by
    rw [List.length_append]
    omega
  rw [splitBytes?, if_pos hmore, List.take_append_of_le_length hle,
    List.drop_append_of_le_length hle]

theorem splitBytes?_append (front rest : List UInt8) :
    splitBytes? front.length (front ++ rest) = some (front, rest) := by
  simp [splitBytes?]

theorem steady_readWord? (width : Nat) : Steady (readWord? width) :=
  (steady_splitBytes? width).map ofLittleEndian

theorem readWord?_append (width n : Nat) (h : n < 256 ^ width) (rest : List UInt8) :
    readWord? width (littleEndian width n ++ rest) = some (n, rest) := by
  have hsplit := splitBytes?_append (littleEndian width n) rest
  rw [length_littleEndian] at hsplit
  rw [readWord?, hsplit, Option.map_some, ofLittleEndian_littleEndian h]

theorem steady_readCounted? : Steady readCounted? :=
  (steady_readWord? 8).bind steady_splitBytes?

theorem readCounted?_append {bs : List UInt8} (h : bs.length < 2 ^ 64) (rest : List UInt8) :
    readCounted? (countedBytes bs ++ rest) = some (bs, rest) := by
  have hword := readWord?_append 8 bs.length (by simpa using h) (bs ++ rest)
  simp only [readCounted?, countedBytes, List.append_assoc, hword]
  exact splitBytes?_append bs rest

theorem steady_readText? : Steady readText? :=
  steady_readCounted?.filterMap fun (content : List UInt8) => String.fromUTF8? ⟨content.toArray⟩

theorem readText?_append {s : String} (h : (textBytes s).length < 2 ^ 64) (rest : List UInt8) :
    readText? (textBytes s ++ rest) = some (s, rest) := by
  have hlen : s.toUTF8.data.toList.length < 2 ^ 64 := by
    rw [textBytes, countedBytes, List.length_append] at h
    omega
  have hutf : String.fromUTF8? s.toUTF8 = some s := by
    simp only [String.fromUTF8?, String.toUTF8_eq_toByteArray, dif_pos s.isValidUTF8]
    rfl
  simp only [readText?, textBytes, readCounted?_append hlen, Option.bind_eq_bind,
    Option.bind_some, Array.toArray_toList]
  rw [hutf]
  rfl

/-- A codec whose byte form is read back whatever follows it. A count is eight bytes wide, so the
bytes of a value have to be fewer than it can tell. -/
structure Codec.Packs {α : Type} (c : Codec α) : Prop where
  steady : Steady c.ofBytes
  ne_nil : ∀ a, c.toBytes a ≠ []
  ofBytes_append : ∀ a, (c.toBytes a).length < 2 ^ 64 →
    ∀ more, c.ofBytes (c.toBytes a ++ more) = some (a, more)

structure Fields.Packs {α : Type} (fs : Fields α) : Prop where
  steady : Steady fs.ofBytes
  ofBytes_append : ∀ a, (fs.toBytes a).length < 2 ^ 64 →
    ∀ more, fs.ofBytes (fs.toBytes a ++ more) = some (a, more)

structure Case.Packs {α : Type} (k : Case α) : Prop where
  steady : Steady k.ofBytes
  ofBytes_append : ∀ a bs, k.toBytes a = some bs → bs.length < 2 ^ 64 →
    ∀ more, k.ofBytes (bs ++ more) = some (a, more)

namespace Fields.Packs

variable {α β : Type}

theorem done : Fields.done.Packs where
  steady := .pure ()
  ofBytes_append _ _ _ := rfl

theorem cons {c : Codec α} {fs : Fields β} (hc : c.Packs) (hfs : fs.Packs) (name : String)
    (missing : Option α) : (Fields.cons name c missing fs).Packs where
  steady := hc.steady.bind fun a => hfs.steady.bind fun b => .pure (a, b)
  ofBytes_append r hb more := by
    simp only [Fields.cons, List.length_append] at hb
    have hfirst := hc.ofBytes_append r.1 (by omega) (fs.toBytes r.2 ++ more)
    have hrest := hfs.ofBytes_append r.2 (by omega) more
    simp only [Fields.cons, List.append_assoc, hfirst, Option.bind_eq_bind, Option.bind_some,
      hrest]
    rfl

end Fields.Packs

namespace Case.Packs

variable {α β : Type}

theorem bare [DecidableEq α] (name : String) (a : α) : (Case.bare name a).Packs where
  steady := .pure a
  ofBytes_append b bs h _ more := by
    simp only [Case.bare, Option.ite_none_right_eq_some, Option.some.injEq] at h
    obtain ⟨rfl, rfl⟩ := h
    rfl

theorem holding {c : Codec β} (hc : c.Packs) (name : String) {make : β → α}
    {content? : α → Option β} (hmake : ∀ a b, content? a = some b → make b = a) :
    (Case.holding name c make content?).Packs where
  steady := hc.steady.map make
  ofBytes_append a bs h hb more := by
    obtain ⟨b, hcontent, rfl⟩ := Option.map_eq_some_iff.mp h
    simp only [Case.holding, hc.ofBytes_append b hb more, Option.map_some, hmake a b hcontent]

end Case.Packs

/-- The bytes of a value begin with the number of the first case that the value belongs to. -/
theorem Case.firstBytes_eq {α : Type} {a : α} {cases : List (Case α)}
    (h : ∃ k ∈ cases, (k.toBytes a).isSome) (n : Nat) :
    ∃ i k bs, cases[i]? = some k ∧ k.toBytes a = some bs ∧
      firstBytes a n cases = littleEndian 4 (n + i) ++ bs := by
  induction cases generalizing n with
  | nil => simp at h
  | cons k ks ih =>
    cases hk : k.toBytes a with
    | some bs => exact ⟨0, k, bs, rfl, hk, by simp [firstBytes, hk]⟩
    | none =>
      have hrest : ∃ l ∈ ks, (l.toBytes a).isSome := by
        obtain ⟨l, hl, hsome⟩ := h
        rcases List.mem_cons.mp hl with rfl | hl
        · simp [hk] at hsome
        · exact ⟨l, hl, hsome⟩
      obtain ⟨i, l, bs, hl, hbs, heq⟩ := ih hrest (n + 1)
      exact ⟨i + 1, l, bs, hl, hbs, by rw [firstBytes, hk, heq, Nat.add_right_comm, Nat.add_assoc]⟩

namespace Codec

theorem steady_readMany? {α : Type} {c : Codec α} (h : Steady c.ofBytes) (n : Nat) :
    Steady (readMany? c n) := by
  induction n with
  | zero => exact .pure []
  | succ n ih => exact h.bind fun a => ih.bind fun as => .pure (a :: as)

namespace Packs

variable {α β : Type} {c : Codec α}

theorem length_le (hc : c.Packs) (as : List α) : as.length ≤ (as.flatMap c.toBytes).length := by
  induction as with
  | nil => simp
  | cons a as ih =>
    have hpos := List.length_pos_iff.mpr (hc.ne_nil a)
    simp only [List.length_cons, List.flatMap_cons, List.length_append]
    omega

theorem readMany?_append (hc : c.Packs) (as : List α)
    (hb : (as.flatMap c.toBytes).length < 2 ^ 64) (more : List UInt8) :
    readMany? c as.length (as.flatMap c.toBytes ++ more) = some (as, more) := by
  induction as with
  | nil => rfl
  | cons a as ih =>
    simp only [List.flatMap_cons, List.length_append] at hb
    have hfirst := hc.ofBytes_append a (by omega) (as.flatMap c.toBytes ++ more)
    simp only [List.length_cons, readMany?, List.flatMap_cons, List.append_assoc, hfirst,
      Option.bind_eq_bind, Option.bind_some, ih (by omega)]
    rfl

theorem bool : Codec.bool.Packs where
  steady bs rest b h more := by
    simp only [Codec.bool] at h ⊢
    split at h <;> cases h <;> rfl
  ne_nil b := by simp [Codec.bool]
  ofBytes_append b _ more := by cases b <;> rfl

theorem of_word (write : α → UInt32) (read : UInt32 → α)
    (hwrite : c.toBytes = fun a => littleEndian 4 (write a).toNat)
    (hread : c.ofBytes = fun bs => (readWord? 4 bs).map fun r => (read (.ofNat r.1), r.2))
    (hinv : ∀ a, read (write a) = a) : c.Packs where
  steady := hread ▸ (steady_readWord? 4).map fun n => read (.ofNat n)
  ne_nil a := List.ne_nil_of_length_pos (by simp [hwrite])
  ofBytes_append a _ more := by
    have hword := readWord?_append 4 (write a).toNat (write a).toNat_lt more
    simp only [hwrite, hread, hword, Option.map_some, UInt32.ofNat_toNat, hinv]

theorem word : Codec.word.Packs := .of_word id id rfl rfl fun _ => rfl

theorem integer : Codec.integer.Packs := .of_word Int32.toUInt32 UInt32.toInt32 rfl rfl fun _ => rfl

theorem single : Codec.single.Packs := .of_word Single.bits Single.mk rfl rfl fun _ => rfl

theorem text : Codec.text.Packs where
  steady := steady_readText?
  ne_nil s := by simp [Codec.text, textBytes, countedBytes, littleEndian]
  ofBytes_append s hb more := readText?_append hb more

theorem spelled {render : α → String} {parse? : String → Option α}
    (h : ∀ a, parse? (render a) = some a) : (Codec.spelled render parse?).Packs where
  steady := steady_readText?.filterMap parse?
  ne_nil a := text.ne_nil (render a)
  ofBytes_append a hb more := by
    have htext := readText?_append hb more
    simp only [Codec.spelled, htext, Option.bind_eq_bind, Option.bind_some, h]
    rfl

theorem option (hc : c.Packs) : c.option.Packs where
  steady bs rest o h more := by
    simp only [Codec.option] at h ⊢
    split at h
    · cases h
      rfl
    · rename_i bs
      exact (hc.steady.map some) h more
    · cases h
  ne_nil o := by cases o <;> simp [Codec.option]
  ofBytes_append o hb more := by
    cases o with
    | none => rfl
    | some a =>
      simp only [Codec.option, List.length_cons] at hb
      simp only [Codec.option, List.cons_append, hc.ofBytes_append a (by omega) more,
        Option.map_some]

theorem list (hc : c.Packs) : c.list.Packs where
  steady := (steady_readWord? 8).bind fun n => steady_readMany? hc.steady n
  ne_nil as := by simp [Codec.list, littleEndian]
  ofBytes_append as hb more := by
    simp only [Codec.list, List.length_append] at hb
    have hlen := hc.length_le as
    have hword := readWord?_append 8 as.length (by simp; omega) (as.flatMap c.toBytes ++ more)
    simp only [Codec.list, List.append_assoc, hword, Option.bind_eq_bind, Option.bind_some]
    exact hc.readMany?_append as (by omega) more

theorem along (hc : c.Packs) {f : α → β} {g : β → α} (h : ∀ b, f (g b) = b) :
    (c.along f g).Packs where
  steady := hc.steady.map f
  ne_nil b := hc.ne_nil (g b)
  ofBytes_append b hb more := by
    simp only [Codec.along, hc.ofBytes_append (g b) hb more, Option.map_some, h]

theorem record {fs : Fields β} {name : String} {missing : Option α} (hc : c.Packs)
    (hfs : fs.Packs) (short : Bool) : (Codec.record (.cons name c missing fs) short).Packs where
  steady := (hfs.cons hc name missing).steady
  ne_nil r := by simp [Codec.record, Fields.cons, hc.ne_nil]
  ofBytes_append := (hfs.cons hc name missing).ofBytes_append

theorem variants {cases : List (Case α)} (h : ∀ k ∈ cases, k.Packs)
    (hcover : ∀ a, ∃ k ∈ cases, (k.toBytes a).isSome) (hlen : cases.length < 2 ^ 32) :
    (Codec.variants cases).Packs where
  steady := by
    refine (steady_readWord? 4).bind
      (g := fun n bs => cases[n]?.bind fun k => k.ofBytes bs) fun n => ?_
    cases hk : cases[n]? with
    | none => exact .fail
    | some k => exact (h k (List.mem_of_getElem? hk)).steady
  ne_nil a := by
    obtain ⟨i, k, bs, -, -, heq⟩ := Case.firstBytes_eq (hcover a) 0
    simp [Codec.variants, heq, littleEndian]
  ofBytes_append a hb more := by
    obtain ⟨i, k, bs, hk, hbs, heq⟩ := Case.firstBytes_eq (hcover a) 0
    have hi := (List.getElem?_eq_some_iff.mp hk).1
    rw [Nat.zero_add] at heq
    simp only [Codec.variants, heq, List.length_append] at hb
    have hword := readWord?_append 4 i (by simp; omega) (bs ++ more)
    have hcase := (h k (List.mem_of_getElem? hk)).ofBytes_append a bs hbs (by omega) more
    simp only [Codec.variants, heq, List.append_assoc, hword, Option.bind_eq_bind,
      Option.bind_some, hk, hcase]

theorem names [DecidableEq α] {entries : List (String × α)}
    (hcover : ∀ a, a ∈ entries.map (·.2)) (hlen : entries.length < 2 ^ 32) :
    (Codec.names entries).Packs := by
  refine variants (fun k hk => ?_) (fun a => ?_) (by simpa using hlen)
  · obtain ⟨e, -, rfl⟩ := List.mem_map.mp hk
    exact .bare e.1 e.2
  · obtain ⟨e, he, rfl⟩ := List.mem_map.mp (hcover a)
    exact ⟨_, List.mem_map_of_mem he, by simp [Case.bare]⟩

theorem ofBytes_eq_none (hc : c.Packs) {a : α} {bs : List UInt8}
    (hb : (c.toBytes a).length < 2 ^ 64) (hfront : bs <+: c.toBytes a)
    (hne : bs ≠ c.toBytes a) : c.ofBytes bs = none := by
  obtain ⟨more, hmore⟩ := hfront
  cases h : c.ofBytes bs with
  | none => rfl
  | some r =>
    -- read to the end of the value, the same bytes would leave some of themselves over
    have hlong := hc.steady h more
    have hfull := hc.ofBytes_append a hb []
    rw [hmore] at hlong
    rw [List.append_nil, hlong] at hfull
    have hnil : r.2 ++ more = [] := (Prod.mk.inj (Option.some.inj hfull)).2
    rw [(List.append_eq_nil_iff.mp hnil).2, List.append_nil] at hmore
    exact absurd hmore hne

end Packs

end Codec

end Statechart
