import Mathlib
import Statechart.Proofs.Packed

/-! Byte forms read the other way. What is read from bytes is written with the very bytes that were
taken, so that a value has only one form. A time alone has several spellings, of which one is
written. -/

namespace Statechart

theorem littleEndian_ofLittleEndian (bs : List UInt8) :
    littleEndian bs.length (ofLittleEndian bs) = bs := by
  induction bs with
  | nil => rfl
  | cons b bs ih =>
    have hb := b.toNat_lt
    have hlow : UInt8.ofNat (b.toNat + 256 * ofLittleEndian bs) = b := by
      rw [← UInt8.toNat_inj, UInt8.toNat_ofNat']
      omega
    have hhigh : (b.toNat + 256 * ofLittleEndian bs) / 256 = ofLittleEndian bs := by omega
    rw [ofLittleEndian, List.length_cons, littleEndian, hlow, hhigh, ih]

theorem ofLittleEndian_lt (bs : List UInt8) : ofLittleEndian bs < 256 ^ bs.length := by
  induction bs with
  | nil => simp [ofLittleEndian]
  | cons b bs ih =>
    have hb := b.toNat_lt
    rw [ofLittleEndian, List.length_cons, Nat.pow_succ]
    omega

theorem eq_of_splitBytes? {width : Nat} {bs front rest : List UInt8}
    (h : splitBytes? width bs = some (front, rest)) :
    bs = front ++ rest ∧ front.length = width := by
  simp only [splitBytes?, Option.ite_none_right_eq_some, Option.some.injEq, Prod.mk.injEq] at h
  obtain ⟨hle, rfl, rfl⟩ := h
  exact ⟨(List.take_append_drop ..).symm, List.length_take_of_le hle⟩

theorem eq_of_readWord? {width n : Nat} {bs rest : List UInt8}
    (h : readWord? width bs = some (n, rest)) :
    bs = littleEndian width n ++ rest ∧ n < 256 ^ width := by
  obtain ⟨⟨front, back⟩, hsplit, heq⟩ := Option.map_eq_some_iff.mp h
  obtain ⟨rfl, rfl⟩ := Prod.mk.inj heq
  obtain ⟨rfl, rfl⟩ := eq_of_splitBytes? hsplit
  exact ⟨by rw [littleEndian_ofLittleEndian], ofLittleEndian_lt front⟩

theorem eq_of_readCounted? {bs content rest : List UInt8}
    (h : readCounted? bs = some (content, rest)) : bs = countedBytes content ++ rest := by
  obtain ⟨⟨n, mid⟩, hword, hsplit⟩ := Option.bind_eq_some_iff.mp h
  obtain ⟨rfl, -⟩ := eq_of_readWord? hword
  obtain ⟨rfl, rfl⟩ := eq_of_splitBytes? hsplit
  rw [countedBytes, List.append_assoc]

theorem toUTF8_of_fromUTF8? {content : ByteArray} {s : String}
    (h : String.fromUTF8? content = some s) : s.toUTF8 = content := by
  simp only [String.fromUTF8?] at h
  split at h
  · rw [← Option.some.inj h]
    rfl
  · cases h

theorem eq_of_readText? {bs rest : List UInt8} {s : String} (h : readText? bs = some (s, rest)) :
    bs = textBytes s ++ rest := by
  obtain ⟨⟨content, back⟩, hcounted, hutf⟩ := Option.bind_eq_some_iff.mp h
  obtain ⟨t, ht, heq⟩ := Option.bind_eq_some_iff.mp hutf
  obtain ⟨rfl, rfl⟩ := Prod.mk.inj (Option.some.inj heq)
  rw [eq_of_readCounted? hcounted, textBytes, toUTF8_of_fromUTF8? ht]

/-- What is read is written with the bytes that were taken for it. -/
def Codec.Canonical {α : Type} (c : Codec α) : Prop :=
  ∀ ⦃bs rest : List UInt8⦄ ⦃a : α⦄, c.ofBytes bs = some (a, rest) → bs = c.toBytes a ++ rest

def Fields.Canonical {α : Type} (fs : Fields α) : Prop :=
  ∀ ⦃bs rest : List UInt8⦄ ⦃a : α⦄, fs.ofBytes bs = some (a, rest) → bs = fs.toBytes a ++ rest

/-- The value that is read belongs to the case, and is written with the bytes that were taken. -/
def Case.Canonical {α : Type} (k : Case α) : Prop :=
  ∀ ⦃bs rest : List UInt8⦄ ⦃a : α⦄, k.ofBytes bs = some (a, rest) →
    ∃ front, k.toBytes a = some front ∧ bs = front ++ rest

namespace Fields

variable {α β : Type}

theorem cons_eq_some {name : String} {c : Codec α} {missing : Option α} {fs : Fields β}
    {bs rest : List UInt8} {r : α × β} :
    (cons name c missing fs).ofBytes bs = some (r, rest) ↔
      ∃ mid, c.ofBytes bs = some (r.1, mid) ∧ fs.ofBytes mid = some (r.2, rest) := by
  simp only [cons, Option.bind_eq_bind, Option.bind_eq_some_iff, Option.pure_def,
    Option.some.injEq, Prod.mk.injEq, Prod.exists]
  constructor
  · rintro ⟨a, mid, ha, b, back, hb, rfl, rfl⟩
    exact ⟨mid, ha, hb⟩
  · rintro ⟨mid, ha, hb⟩
    exact ⟨r.1, mid, ha, r.2, rest, hb, rfl, rfl⟩

namespace Canonical

theorem done : Fields.done.Canonical := by
  intro bs rest a h
  obtain ⟨-, rfl⟩ := Prod.mk.inj (Option.some.inj h)
  rfl

theorem cons {c : Codec α} {fs : Fields β} (hc : c.Canonical) (hfs : fs.Canonical)
    (name : String) (missing : Option α) : (Fields.cons name c missing fs).Canonical := by
  intro bs rest r h
  obtain ⟨mid, ha, hb⟩ := cons_eq_some.mp h
  rw [hc ha, hfs hb, ← List.append_assoc]
  rfl

end Canonical

end Fields

namespace Case

variable {α β : Type}

namespace Canonical

theorem bare [DecidableEq α] (name : String) (a : α) : (Case.bare name a).Canonical := by
  intro bs rest b h
  obtain ⟨rfl, rfl⟩ := Prod.mk.inj (Option.some.inj h)
  exact ⟨[], if_pos rfl, rfl⟩

theorem holding {c : Codec β} (hc : c.Canonical) (name : String) {make : β → α}
    {content? : α → Option β} (hmake : ∀ b, content? (make b) = some b) :
    (Case.holding name c make content?).Canonical := by
  intro bs rest a h
  obtain ⟨⟨b, back⟩, hb, heq⟩ := Option.map_eq_some_iff.mp h
  obtain ⟨rfl, rfl⟩ := Prod.mk.inj heq
  have hfront : (content? (make b)).map c.toBytes = some (c.toBytes b) := by
    rw [hmake, Option.map_some]
  exact ⟨c.toBytes b, hfront, hc hb⟩

end Canonical

/-- A value that belongs to one case alone is written under the number of that case. -/
theorem firstBytes_of_getElem? {a : α} {cases : List (Case α)} {i : Nat} {k : Case α}
    {front : List UInt8}
    (hapart : cases.Pairwise fun k l => k.toBytes a = none ∨ l.toBytes a = none)
    (hk : cases[i]? = some k) (hfront : k.toBytes a = some front) (n : Nat) :
    firstBytes a n cases = littleEndian 4 (n + i) ++ front := by
  induction cases generalizing i n with
  | nil => cases hk
  | cons l ls ih =>
    obtain ⟨hl, hrest⟩ := List.pairwise_cons.mp hapart
    cases i with
    | zero =>
      obtain rfl : l = k := Option.some.inj hk
      simp only [firstBytes, hfront, Nat.add_zero]
    | succ i =>
      have hnone : l.toBytes a = none :=
        (hl k (List.mem_of_getElem? hk)).resolve_right (by simp [hfront])
      simp only [firstBytes, hnone]
      rw [ih hrest hk, Nat.add_right_comm, Nat.add_assoc]

end Case

namespace Codec

variable {α β : Type} {c : Codec α}

namespace Canonical

theorem readMany? (hc : c.Canonical) {n : Nat} {bs rest : List UInt8} {as : List α}
    (h : readMany? c n bs = some (as, rest)) :
    bs = as.flatMap c.toBytes ++ rest ∧ as.length = n := by
  induction n generalizing bs as with
  | zero =>
    obtain ⟨rfl, rfl⟩ := Prod.mk.inj (Option.some.inj h)
    exact ⟨rfl, rfl⟩
  | succ n ih =>
    simp only [Codec.readMany?, Option.bind_eq_bind, Option.bind_eq_some_iff, Option.pure_def,
      Option.some.injEq, Prod.mk.injEq, Prod.exists] at h
    obtain ⟨a, mid, ha, as, back, has, rfl, rfl⟩ := h
    obtain ⟨hmid, rfl⟩ := ih has
    exact ⟨by rw [hc ha, hmid, List.flatMap_cons, List.append_assoc], rfl⟩

theorem bool : Codec.bool.Canonical := by
  intro bs rest b h
  simp only [Codec.bool] at h
  split at h <;> cases h <;> rfl

theorem of_word (write : α → UInt32) (read : UInt32 → α)
    (hwrite : c.toBytes = fun a => littleEndian 4 (write a).toNat)
    (hread : c.ofBytes = fun bs => (readWord? 4 bs).map fun r => (read (.ofNat r.1), r.2))
    (hinv : ∀ n, write (read n) = n) : c.Canonical := by
  intro bs rest a h
  rw [hread] at h
  obtain ⟨⟨n, back⟩, hword, heq⟩ := Option.map_eq_some_iff.mp h
  obtain ⟨rfl, rfl⟩ := Prod.mk.inj heq
  obtain ⟨rfl, hlt⟩ := eq_of_readWord? hword
  simp only [hwrite, hinv, UInt32.toNat_ofNat_of_lt' (show n < 2 ^ 32 by simpa using hlt)]

theorem word : Codec.word.Canonical := .of_word id id rfl rfl fun _ => rfl

theorem integer : Codec.integer.Canonical :=
  .of_word Int32.toUInt32 UInt32.toInt32 rfl rfl fun _ => rfl

theorem single : Codec.single.Canonical := .of_word Single.bits Single.mk rfl rfl fun _ => rfl

theorem text : Codec.text.Canonical := fun _ _ _ h => eq_of_readText? h

/-- Of the spellings of a value only the written one is told by the value. -/
theorem of_spelled {render : α → String} {parse? : String → Option α} {bs rest : List UInt8}
    {a : α} (h : (Codec.spelled render parse?).ofBytes bs = some (a, rest))
    (htext : (readText? bs).map (·.1) = some (render a)) :
    bs = (Codec.spelled render parse?).toBytes a ++ rest := by
  obtain ⟨⟨s, mid⟩, hs, hparse⟩ := Option.bind_eq_some_iff.mp h
  obtain ⟨b, -, heq⟩ := Option.bind_eq_some_iff.mp hparse
  obtain ⟨rfl, rfl⟩ := Prod.mk.inj (Option.some.inj heq)
  obtain rfl : s = render b := by simpa [hs] using htext
  exact eq_of_readText? hs

theorem option (hc : c.Canonical) : c.option.Canonical := by
  intro bs rest o h
  simp only [Codec.option] at h
  split at h
  · cases h
    rfl
  · obtain ⟨⟨a, back⟩, ha, heq⟩ := Option.map_eq_some_iff.mp h
    obtain ⟨rfl, rfl⟩ := Prod.mk.inj heq
    rw [hc ha]
    rfl
  · cases h

theorem list (hc : c.Canonical) : c.list.Canonical := by
  intro bs rest as h
  obtain ⟨⟨n, mid⟩, hword, hmany⟩ := Option.bind_eq_some_iff.mp h
  obtain ⟨rfl, -⟩ := eq_of_readWord? hword
  obtain ⟨rfl, rfl⟩ := hc.readMany? hmany
  simp only [Codec.list, List.append_assoc]

theorem along (hc : c.Canonical) {f : α → β} {g : β → α} (h : ∀ a, g (f a) = a) :
    (c.along f g).Canonical := by
  intro bs rest b hb
  obtain ⟨⟨a, back⟩, ha, heq⟩ := Option.map_eq_some_iff.mp hb
  obtain ⟨rfl, rfl⟩ := Prod.mk.inj heq
  simp only [Codec.along, h]
  exact hc ha

theorem record {fs : Fields α} (hfs : fs.Canonical) (short : Bool) :
    (Codec.record fs short).Canonical := fun _ _ _ h => hfs h

theorem variants {cases : List (Case α)} (h : ∀ k ∈ cases, k.Canonical)
    (hapart : ∀ a, cases.Pairwise fun k l => k.toBytes a = none ∨ l.toBytes a = none) :
    (Codec.variants cases).Canonical := by
  intro bs rest a ha
  obtain ⟨⟨n, mid⟩, hword, hcase⟩ := Option.bind_eq_some_iff.mp ha
  obtain ⟨k, hk, hread⟩ := Option.bind_eq_some_iff.mp hcase
  obtain ⟨front, hfront, rfl⟩ := h k (List.mem_of_getElem? hk) hread
  obtain ⟨rfl, -⟩ := eq_of_readWord? hword
  simp only [Codec.variants, Case.firstBytes_of_getElem? (hapart a) hk hfront, Nat.zero_add,
    List.append_assoc]

theorem names [DecidableEq α] {entries : List (String × α)} (h : (entries.map (·.2)).Nodup) :
    (Codec.names entries).Canonical := by
  refine variants (fun k hk => ?_) fun a => ?_
  · obtain ⟨e, -, rfl⟩ := List.mem_map.mp hk
    exact .bare e.1 e.2
  · refine List.pairwise_map.mpr ((List.pairwise_map.mp h).imp fun {e f} hne => ?_)
    simp only [Case.bare, ite_eq_right_iff, reduceCtorEq, imp_false]
    exact not_and_or.mp fun hboth => hne (hboth.1.symm.trans hboth.2)

end Canonical

end Codec

open Codec (Canonical)

theorem NodeHandle.canonical : codec.Canonical := Canonical.word.along fun _ => rfl

theorem StateHandle.canonical : codec.Canonical := NodeHandle.canonical.along fun _ => rfl

theorem MachineHandle.canonical : codec.Canonical := NodeHandle.canonical.along fun _ => rfl

theorem Endpoint.canonical : codec.Canonical := by
  refine .variants ?_ fun e => ?_
  · simp only [List.forall_mem_cons]
    exact ⟨.holding StateHandle.canonical "State" fun _ => rfl,
      .holding MachineHandle.canonical "SubMachine" fun _ => rfl, .bare "Absent" absent, nofun⟩
  · cases e <;> simp [Case.holding, Case.bare, state?, machine?]

theorem Route.canonical_targetFields {α : Type} {c : Codec α} (h : c.Canonical) (name : String) :
    (targetFields name c).Canonical :=
  .record (.cons h (.cons Endpoint.canonical .done "to" _) name _) false

theorem Route.canonical : codec.Canonical := by
  refine .variants ?_ fun r => ?_
  · simp only [List.forall_mem_cons]
    exact ⟨.holding (canonical_targetFields StateHandle.canonical "from") "StateTo" fun _ => rfl,
      .holding (.record (.cons StateHandle.canonical .done _ _) false) "StateExit" fun _ => rfl,
      .holding (canonical_targetFields MachineHandle.canonical "machine") "AnyState" fun _ => rfl,
      .holding (canonical_targetFields MachineHandle.canonical "machine") "Entry" fun _ => rfl,
      .holding (.record (.cons MachineHandle.canonical (.cons MachineHandle.canonical
        (.cons Endpoint.canonical .done _ _) _ _) _ _) false) "MachineTo" fun _ => rfl,
      .holding (.record (.cons MachineHandle.canonical (.cons MachineHandle.canonical .done _ _)
        _ _) false) "MachineExit" fun _ => rfl, nofun⟩
  · cases r <;> simp [Case.holding]

theorem Comparison.canonical : codec.Canonical := .names (by decide)

theorem Condition.canonical : codec.Canonical :=
  (Canonical.record (.cons .text (.cons Comparison.canonical (.cons .single .done _ _) _ _) _ _)
    false).along fun _ => rfl

theorem ParameterKind.canonical : codec.Canonical := .names (by decide)

theorem Parameter.canonical : codec.Canonical :=
  (Canonical.record (.cons .text (.cons ParameterKind.canonical .done _ _) _ _) false).along
    fun _ => rfl

theorem Interruption.canonical : codec.Canonical := .names (by decide)

theorem TransitionSettings.canonical : codec.Canonical :=
  (Canonical.record (.cons .single (.cons .single (.cons .bool (.cons .bool (.cons .single
    (.cons Interruption.canonical (.cons .bool (.cons .bool .done _ _) _ _) _ _) _ _) _ _) _ _) _ _)
    _ _) false).along fun _ => rfl

theorem Position.canonical : codec.Canonical :=
  (Canonical.record (.cons .single (.cons .single .done _ _) _ _) false).along fun _ => rfl

theorem Cell.canonical : codec.Canonical :=
  (Canonical.record (.cons .integer (.cons .integer .done _ _) _ _) false).along fun _ => rfl

theorem Grid.canonical : codec.Canonical :=
  (Canonical.record (.cons .single (.cons .single .done _ _) _ _) false).along fun _ => rfl

theorem StateSettings.canonical : codec.Canonical :=
  (Canonical.record (.cons (.option .text) (.cons .bool (.cons .single (.cons (.option .text)
    (.cons (.option .text) (.cons .single (.cons (.option .text) .done _ _) _ _) _ _) _ _) _ _) _ _)
    _ _) false).along fun _ => rfl

theorem Anchors.canonical : codec.Canonical :=
  (Canonical.record (.cons Position.canonical (.cons Position.canonical (.cons Position.canonical
    (.cons Position.canonical .done _ _) _ _) _ _) _ _) false).along fun _ => rfl

theorem Machine.canonical : codec.Canonical :=
  (Canonical.record (.cons (.list NodeHandle.canonical) (.cons (.option StateHandle.canonical)
    (.cons Anchors.canonical .done _ _) _ _) _ _) false).along fun _ => rfl

theorem NodeKind.canonical : codec.Canonical := by
  refine .variants ?_ fun k => ?_
  · simp only [List.forall_mem_cons]
    exact ⟨.holding StateSettings.canonical "State" fun _ => rfl,
      .holding Machine.canonical "SubMachine" fun _ => rfl, nofun⟩
  · cases k <;> simp [Case.holding, settings?, machine?]

theorem Node.canonical : codec.Canonical :=
  (Canonical.record (.cons .text (.cons (.option MachineHandle.canonical)
    (.cons Position.canonical (.cons NodeKind.canonical .done _ _) _ _) _ _) _ _) false).along
    fun _ => rfl

theorem Edge.canonical : codec.Canonical :=
  (Canonical.record (.cons MachineHandle.canonical (.cons Route.canonical
    (.cons (.option TransitionSettings.canonical) (.cons (.list Condition.canonical) .done _ _)
      _ _) _ _) _ _) false).along fun _ => rfl

theorem Layer.canonical : codec.Canonical :=
  (Canonical.record (.cons .text (.cons MachineHandle.canonical .done _ _) _ _) false).along
    fun _ => rfl

theorem Defaults.canonical : codec.Canonical :=
  (Canonical.record (.cons Grid.canonical (.cons .bool (.cons TransitionSettings.canonical
    (.cons Cell.canonical (.cons Cell.canonical (.cons Cell.canonical (.cons Cell.canonical .done
      _ _) _ _) _ _) _ _) _ _) _ _) _ _) true).along fun _ => rfl

theorem Uuid.canonical : codec.Canonical := by
  intro bs rest u h
  obtain ⟨⟨content, mid⟩, hcounted, hsized⟩ := Option.bind_eq_some_iff.mp h
  obtain ⟨v, hv, heq⟩ := Option.bind_eq_some_iff.mp hsized
  obtain ⟨rfl, rfl⟩ := Prod.mk.inj (Option.some.inj heq)
  simp only [ofBytes?, Option.dite_none_right_eq_some, Option.some.injEq] at hv
  obtain ⟨-, rfl⟩ := hv
  exact eq_of_readCounted? hcounted

namespace Snapshot

/-- The text that stands for the time in the bytes of a snapshot. -/
def timeText? (bs : List UInt8) : Option String := do
  let (_, bs) ← Codec.word.ofBytes bs
  let (_, bs) ← Uuid.codec.ofBytes bs
  let (text, _) ← readText? bs
  return text

/-- The bytes that are taken for a snapshot, without those behind it. -/
def taken? (bs : List UInt8) : Option (List UInt8) :=
  (codec.ofBytes bs).map fun r => bs.take (bs.length - r.2.length)

theorem eq_of_ofBytes {bs rest : List UInt8} {s : Snapshot}
    (h : codec.ofBytes bs = some (s, rest)) (htime : timeText? bs = some s.exportedAt.render) :
    bs = s.toBytes ++ rest := by
  obtain ⟨⟨⟨version, id, time, fields⟩, back⟩, hread, heq⟩ := Option.map_eq_some_iff.mp h
  obtain ⟨rfl, rfl⟩ := Prod.mk.inj heq
  simp only [Codec.record] at hread
  rw [Fields.field, Fields.cons_eq_some] at hread
  obtain ⟨bs₁, hversion, hread⟩ := hread
  rw [Fields.field, Fields.cons_eq_some] at hread
  obtain ⟨bs₂, hid, hread⟩ := hread
  rw [Fields.field, Fields.cons_eq_some] at hread
  obtain ⟨bs₃, hread₃, hread⟩ := hread
  have htext : (readText? bs₂).map (·.1) = some time.render := by
    simpa [timeText?, hversion, hid, Option.map_eq_bind, Function.comp_def] using htime
  have hfields : (Fields.field "name" .text (.field "defaults" Defaults.codec
      (.field "parameters" (.list Parameter.codec) (.field "layers" (.list Layer.codec)
        (.field "nodes" (.list Node.codec)
          (.field "edges" (.list Edge.codec) .done)))))).Canonical :=
    .cons .text (.cons Defaults.canonical (.cons (.list Parameter.canonical)
      (.cons (.list Layer.canonical) (.cons (.list Node.canonical) (.cons (.list Edge.canonical)
        .done _ _) _ _) _ _) _ _) _ _) _ _
  calc
    bs = Codec.word.toBytes version ++ (Uuid.codec.toBytes id ++ (Timestamp.codec.toBytes time ++
        (Fields.toBytes _ fields ++ back))) := by
      rw [Canonical.word hversion, Uuid.canonical hid, Canonical.of_spelled hread₃ htext,
        hfields hread]
      rfl
    _ = (Codec.word.toBytes version ++ (Uuid.codec.toBytes id ++ (Timestamp.codec.toBytes time ++
        Fields.toBytes _ fields))) ++ back := by simp only [List.append_assoc]

/-- A snapshot is read from the bytes that it is written with and from no others, as long as the
time in them is spelled as it is written. So bytes that give the same snapshot are the same up to
where reading ends. -/
theorem taken?_of_ofBytes? {bs : List UInt8} {s : Snapshot} (h : ofBytes? bs = some s)
    (htime : timeText? bs = some s.exportedAt.render) :
    s.toBytes <+: bs ∧ taken? bs = some s.toBytes ∧
      ∀ ds, ofBytes? ds = some s → timeText? ds = some s.exportedAt.render →
        taken? ds = taken? bs := by
  have hfront (ds : List UInt8) (hs : ofBytes? ds = some s)
      (ht : timeText? ds = some s.exportedAt.render) :
      s.toBytes <+: ds ∧ taken? ds = some s.toBytes := by
    obtain ⟨⟨u, rest⟩, hread, rfl⟩ := Option.map_eq_some_iff.mp hs
    have hsplit := eq_of_ofBytes hread ht
    refine ⟨⟨rest, hsplit.symm⟩, ?_⟩
    rw [taken?, hread, Option.map_some, hsplit]
    simp
  obtain ⟨hbs, htaken⟩ := hfront bs h htime
  exact ⟨hbs, htaken, fun ds hs ht => by rw [(hfront ds hs ht).2, htaken]⟩

set_option maxRecDepth 4096 in
theorem taken?_of_ofBytes?_odd :
    let bs := odd.toBytes ++ [0, 255]
    let ds := odd.toBytes ++ [7]
    ofBytes? bs = some odd ∧ timeText? bs = some "-0043-12-31T23:59:60.000005Z" ∧
      taken? bs = some odd.toBytes ∧ taken? ds = taken? bs := by
  intro bs ds
  have hb : odd.toBytes.length < 2 ^ 64 := by cbv
  have hread (more : List UInt8) : ofBytes? (odd.toBytes ++ more) = some odd := by
    rw [ofBytes?, toBytes, packs.ofBytes_append odd hb more, Option.map_some]
  have htext : odd.exportedAt.render = "-0043-12-31T23:59:60.000005Z" := by cbv
  have hbs : timeText? bs = some odd.exportedAt.render := by cbv
  have hds : timeText? ds = some odd.exportedAt.render := by cbv
  obtain ⟨-, htaken, hsame⟩ := taken?_of_ofBytes? (hread [0, 255]) hbs
  exact ⟨hread [0, 255], by rw [hbs, htext], htaken, hsame ds (hread [7]) hds⟩

end Snapshot

end Statechart
