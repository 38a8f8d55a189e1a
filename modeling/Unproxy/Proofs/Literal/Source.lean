import Mathlib
import Unproxy.Proofs.Literal.Reading
import Unproxy.Proofs.Resolution.Representable
import Unproxy.Proofs.Table.RoundTrip

/-!
# Unproxy.Proofs.Literal.Source

The source of a value, read and evaluated as a program.

Numbers come out as the nearest doubles and strings as their UTF-16 units. Arrays keep their items
and objects their members, at every depth, with one exception: a member `__proto__` is written like
any other one, and gives the object a prototype instead.

Main statements:

* `Value.readsPart_source`: the source of a value is read as one expression, with its value;
* `Literal.evaluate_source`: exactly what becomes of a decoded value that is written into a program.
-/

namespace Unproxy

open Syntax Syntax.Parser

theorem Text.length_le_of_mem {separator part : Text} {parts : List Text} (h : part ∈ parts) :
    part.length ≤ (Text.join separator parts).length := by
  induction parts with
  | nil => cases h
  | cons first parts ih =>
    cases parts with
    | nil =>
      rw [List.mem_singleton.mp h, Text.join, List.intercalate_singleton]
    | cons next parts =>
      rw [Text.join, List.intercalate_cons_cons, List.length_append, List.length_append]
      rcases List.mem_cons.mp h with rfl | h
      · omega
      · exact Nat.le_trans (ih h) (Nat.le_add_left _ _)

/-- Parts in brackets are shorter than the whole, so there is a level further down for them. -/
theorem Text.exists_depth {opening closing : Text} (hopening : 0 < opening.length)
    {parts : List Text} {d : Nat}
    (hd : (opening ++ Text.join ", ".toText parts ++ closing).length ≤ d) :
    ∃ d', d = d' + 1 ∧ ∀ part ∈ parts, part.length ≤ d' := by
  have hpart : ∀ part ∈ parts, part.length ≤ (Text.join ", ".toText parts).length :=
    fun part hpart => Text.length_le_of_mem hpart
  simp only [List.length_append] at hd
  exact ⟨d - 1, by omega, fun part hmem => by have := hpart part hmem; omega⟩

namespace Value

/-- The double nearest to a number of a JSON text is canonical. -/
theorem isCanonical_double {n : Number} (h : (Value.number n).IsJson) : n.double.IsCanonical := by
  cases h with
  | int i => exact Binary64.isCanonical_ofRatio _ _ Nat.one_pos
  | float canonical => exact canonical

/-- The name that the literal of a value gives as an index: a text gives itself, with the halves of
pairs joined, and a number without a sign gives its digits. -/
def asIndex? : Value → Option Text
  | .text t => some (Utf16.joinPairs t)
  | .number n => if n.isBelowZero then none else n.spelling.toOption
  | _ => none

/-- A node that the source of a value is read as. -/
structure Stands (v : Value) (node : Syntax.Tree) : Prop where
  denotes : node.Denotes v.datum.asLiteral
  bare : node.kind ≠ .parenthesized
  index : node.indexName = .ok v.asIndex?
  text : node.text ≠ "delete".toText

/-- Only strings and numbers give names. -/
theorem Stands.of_kind {v : Value} {node : Syntax.Tree} (denotes : node.Denotes v.datum.asLiteral)
    (kind : node.kind ∈ [.null, .true, .false, .unary, .array, .object])
    (index : v.asIndex? = none) (text : node.text ≠ "delete".toText) : v.Stands node := by
  refine ⟨denotes, fun hkind => ?_, ?_, text⟩
  · rw [hkind] at kind
    exact absurd kind (by decide)
  · rw [index, Syntax.Tree.indexName]
    split
    · rename_i hkind
      rw [hkind] at kind
      exact absurd kind (by decide)
    · rename_i hkind
      rw [hkind] at kind
      exact absurd kind (by decide)
    · rfl

theorem stands_of_isLeaf {v : Value} {kind : Kind} {word : String} {node : Syntax.Tree}
    (hkind : kind ∈ [.null, .true, .false]) (hword : word.toText ≠ "delete".toText)
    (index : v.asIndex? = none)
    (value : ∀ start stop, (Syntax.Tree.leaf kind start stop word.toText).evaluate =
      some v.datum.asLiteral)
    (h : node.IsLeaf kind word.toText) : v.Stands node := by
  have hplain : node.isPlain = true := h.isPlain (by fin_cases hkind <;> decide)
  have hkinds : kind ∈ [.null, .true, .false, .unary, .array, .object] := by
    fin_cases hkind <;> decide
  obtain ⟨start, rfl⟩ := h
  exact .of_kind ⟨value _ _, hplain⟩ hkinds index hword

/-- A number is read as a numeral, or as one behind a minus sign. -/
theorem readsPart_number {n : Number} (h : (Value.number n).IsJson) {t : Text}
    (ht : n.source = .ok (some t)) {d : Nat} (hd : t.length ≤ d) :
    ReadsPart (rules (d + 1)).assignment t (Value.number n).Stands := by
  rcases Number.ofSpelling_source (isCanonical_double h) ht with
    ⟨hnumeral, hsign, hspelling, m, hm, hdouble, hsame⟩ |
      ⟨hsign, digits, rfl, hnumeral, m, hm, hdouble⟩
  · refine (readsPart_numeral hnumeral).mono fun node hnode => ?_
    refine ⟨⟨hnode.evaluate_number ?_, hnode.isPlain (by decide)⟩, ?_, ?_, ?_⟩
    · rw [Tree.double?, hm, ← hdouble]
    · obtain ⟨start, rfl⟩ := hnode
      exact Kind.noConfusion
    · obtain ⟨start, rfl⟩ := hnode
      simp only [Syntax.Tree.indexName, Syntax.Tree.leaf, hm, hsame, asIndex?, hsign, hspelling]
      rfl
    · -- A numeral begins with a digit.
      obtain ⟨start, rfl⟩ := hnode
      obtain ⟨c, rest, rfl, hc⟩ := hnumeral.head
      intro hdelete
      rw [(List.cons.inj hdelete).1] at hc
      cases hc
  · -- The operand is read one level further down, and there is one because the sign takes room.
    obtain ⟨d, rfl⟩ : ∃ d', d = d' + 1 := Nat.exists_eq_add_one.mpr (by simp at hd; omega)
    have hdigits : Tree.double? digits = some m.double := by
      rw [Tree.double?, hm]
    refine (readsPart_negative rfl hnumeral).mono ?_
    rintro node ⟨operator, operand, rfl, hoperator, hoperand⟩
    refine .of_kind ⟨?_, ?_⟩ (by simp [Syntax.Tree.node]) (by simp [asIndex?, hsign])
      (List.cons_ne_nil _ _).symm
    · show Tree.evaluateNegation [operator.as .operator, operand.as .argument] = _
      obtain ⟨start, rfl⟩ := hoperator
      rw [Tree.evaluateNegation, Tree.evaluate_as, hoperand.evaluate_number hdigits]
      dsimp only
      rw [hdouble]
      rfl
    · refine Tree.isPlain_node (by decide) (List.forall_mem_cons.mpr ⟨?_, List.forall_mem_cons.mpr
        ⟨?_, by simp⟩⟩)
      · rw [Tree.isPlain_as]
        exact hoperator.isPlain (by decide)
      · rw [Tree.isPlain_as]
        exact hoperand.isPlain (by decide)

theorem readsPart_text {r : Rules} (t : Text) :
    ReadsPart (assignment r) (Literal.string t) (Value.text t).Stands := by
  refine (readsPart_string t).mono ?_
  rintro node ⟨hkind, hvalue, hplain, htext⟩
  refine ⟨⟨?_, hplain⟩, by rw [hkind]; decide, ?_, by rw [htext]; decide⟩
  · rw [Syntax.Tree.evaluate_of_string hkind, Syntax.Tree.units?_of_stringValue hvalue,
      Utf16.encode_joinPairs]
    rfl
  · rw [Syntax.Tree.indexName, hkind]
    dsimp only
    rw [hvalue]
    rfl

/-- The source of a value is read as one expression, which is evaluated to what becomes of the value
in a literal. -/
def ReadsSource (v : Value) (t : Text) : Prop :=
  v.IsJson → ∀ {d : Nat}, t.length ≤ d → ReadsPart (rules (d + 1)).assignment t v.Stands

theorem readsSource_bool (b : Bool) :
    ReadsSource (.bool b) (if b then "true".toText else "false".toText) := by
  intro _ d _
  cases b with
  | true =>
    exact (readsPart_word (.inr (.inl ⟨rfl, rfl⟩))).mono fun node =>
      stands_of_isLeaf (by decide) (by decide) rfl fun _ _ => rfl
  | false =>
    exact (readsPart_word (.inr (.inr ⟨rfl, rfl⟩))).mono fun node =>
      stands_of_isLeaf (by decide) (by decide) rfl fun _ _ => rfl

theorem readsSource_array {items : List Value} {parts : List Text}
    (h : List.Forall₂ (fun part item => ReadsSource item part) parts items) :
    ReadsSource (.array items) ("[".toText ++ Text.join ", ".toText parts ++ "]".toText) := by
  intro json d hd
  cases json with
  | array all =>
  -- The brackets take room, so the items can be read one level further down.
  obtain ⟨d, rfl, hparts⟩ := Text.exists_depth (by decide) hd
  have hitems : List.Forall₂ (fun part datum => ReadsPart (rules (d + 1)).assignment part fun node =>
      node.Denotes datum) parts (Datum.itemsAsLiteral (itemData items)) := by
    clear hd
    induction h with
    | nil => exact .nil
    | cons hpart _ ih =>
      rw [List.forall_mem_cons] at all hparts
      exact .cons ((hpart all.1 hparts.1).mono fun _ h => h.denotes) (ih all.2 hparts.2)
  refine (readsPart_array hitems).mono ?_
  rintro node ⟨hdenotes, hkind, htext⟩
  exact .of_kind hdenotes (by rw [hkind]; decide) rfl (by rw [htext]; decide)

theorem readsSource_object {members : List (Key × Value)} {parts : List Text}
    (h : List.Forall₂ (fun part member => ∃ t,
      part = Literal.string member.1.toText ++ ": ".toText ++ t ∧ ReadsSource member.2 t)
      parts members) :
    ReadsSource (.object members) ("\x7b".toText ++ Text.join ", ".toText parts ++ "\x7d".toText) := by
  intro json d hd
  cases json with
  | object named nodup all =>
  obtain ⟨d, rfl, hparts⟩ := Text.exists_depth (by decide) hd
  have hmembers : List.Forall₂ (fun part p => ReadsPart (objectMember (rules (d + 1))) part fun node =>
      node.kind = .pair ∧ Tree.evaluatePair node.children = some p ∧ node.isPlain = true) parts
      (members.map fun m => ⟨Utf16.encode m.1.toText, false, m.2.datum.asLiteral⟩) := by
    clear hd named nodup
    induction h with
    | nil => exact .nil
    | cons hpart _ ih =>
      obtain ⟨t, rfl, ht⟩ := hpart
      rw [List.forall_mem_cons] at all hparts
      rw [List.length_append] at hparts
      have hvalue := ht all.1 (d := d) (by omega)
      exact .cons (readsPart_objectMember (hvalue.mono fun _ h => h.denotes))
        (ih all.2 hparts.2)
  refine (readsPart_object hmembers (ofProperties_datum named nodup)).mono ?_
  rintro node ⟨hdenotes, hkind, htext⟩
  exact .of_kind hdenotes (by rw [hkind]; decide) rfl (by rw [htext]; decide)

/-- The grammar has to go no deeper than the source has code points. -/
theorem readsPart_source (v : Value) {t : Text} {d : Nat} (json : v.IsJson)
    (h : v.source = .ok (some t)) (hd : t.length ≤ d) :
    ReadsPart (rules (d + 1)).assignment t v.Stands := by
  have step : SourceStep ReadsSource :=
    { null := fun _ _ _ => (readsPart_word (.inl ⟨rfl, rfl⟩)).mono fun node =>
        stands_of_isLeaf (by decide) (by decide) rfl fun _ _ => rfl
      bool := readsSource_bool
      text := fun t _ _ _ => readsPart_text t
      number := fun h json _ hd => readsPart_number json h hd
      array := readsSource_array
      object := readsSource_object }
  exact step.source v h json hd

end Value

/-- A text that is read as one expression is, in parentheses, a program. -/
theorem Literal.parse_of_readsPart {t : Text} {P : Syntax.Tree → Prop}
    (hencodable : Utf8.Encodable t) (hspread : ∀ node, P node → node.kind ≠ .spread)
    (h : ∀ n, t.length ≤ n → ReadsPart (rules (n + 1)).assignment t P) :
    ∃ program left node right, Program.parse ("(".toText ++ t ++ ")".toText) = .ok program ∧
      program.root.children =
        [Syntax.Tree.node .expressionStatement
          [Syntax.Tree.node .parenthesized [left, node, right]]] ∧
      P node := by
  have hsource : "(".toText ++ t ++ ")".toText = "(".toText ++ (t ++ ")".toText) :=
    List.append_assoc ..
  have hlength : ("(".toText ++ (t ++ ")".toText)).length = t.length + 2 := by
    rw [List.length_append, List.length_append, Nat.add_comm]
    rfl
  have hencodable' : Utf8.Encodable ("(".toText ++ (t ++ ")".toText)) := by
    rw [Utf8.encodable_append, Utf8.encodable_append]
    exact ⟨Utf8.encodable_of_isAscii (by decide), hencodable, Utf8.encodable_of_isAscii (by decide)⟩
  have hopening : Program.opening ("(".toText ++ (t ++ ")".toText)) =
      ([], Scan.between 0 [] ("(".toText ++ (t ++ ")".toText))) := rfl
  have hsolid : IsSolid ("(".toText ++ (t ++ ")".toText)) :=
    ⟨by decide, fun h => absurd h (by decide)⟩
  have hstands := Scan.stands_between hsolid 0
  have hnext : (Scan.between 0 [] ("(".toText ++ (t ++ ")".toText))).next = .symbol "(".toText :=
    next_of_stands (by decide) hstands
  -- Behind the parenthesis that closes, the text is at its end.
  have hbehind : ∀ e : Scan, e.Stands ")".toText →
      (e.advance ")".toText).next = .finish ∧ (e.advance ")".toText).comments = [] := by
    intro e he
    rw [Scan.advance, he.rest, he.comments]
    exact ⟨rfl, rfl⟩
  obtain ⟨left, node, right, e, hprimary, he, hsettled, -, -, hnode⟩ :=
    primary_of_parenthesized (h (4 * (t.length + 2) + 13) (by omega)) hspread
      (fun e he => by rw [(hbehind e he).1]; rfl) hstands
  obtain ⟨hend, hcomments⟩ := hbehind e he
  have hends : (e.advance ")".toText).next.endsExpression = true := by
    rw [hend]
    rfl
  have hunary := unary_of_primary (by rw [hnext]; rfl) hprimary hends
  have hassignment := assignment_of_unary (.inl (by rw [hnext]; rfl)) hunary hends
  rw [← hlength] at hassignment
  have hne : "(".toText ++ (t ++ ")".toText) ≠ [] := List.cons_ne_nil _ _
  have htree := Program.tree?_of_expression hne hopening (.inr hnext) hassignment hend
    hcomments hsettled
  rw [hsource, Program.parse, Utf8.checkEncodable_eq_ok_iff.mpr hencodable', htree]
  exact ⟨_, left, node, right, rfl, rfl, hnode⟩

theorem Syntax.Tree.kind_ne_spread {node : Syntax.Tree} {d : Datum} (h : node.evaluate = some d) :
    node.kind ≠ .spread := by
  obtain ⟨kind, role, start, stop, text, children⟩ := node
  rintro rfl
  cases h

/-- A text that is read as one expression has the value of that expression. -/
theorem Literal.evaluate_of_readsPart {t : Text} {d : Datum} (hencodable : Utf8.Encodable t)
    (h : ∀ n, t.length ≤ n →
      ReadsPart (rules (n + 1)).assignment t fun node => node.evaluate = some d) :
    Literal.evaluate t = some d := by
  obtain ⟨program, left, node, right, hparse, hchildren, hnode⟩ :=
    parse_of_readsPart hencodable (fun _ => Syntax.Tree.kind_ne_spread) h
  rw [Literal.evaluate, hparse]
  dsimp only
  rw [hchildren]
  exact hnode

/-- What is written for a value of JSON is evaluated to what becomes of the value in a literal. -/
theorem Value.evaluate_of_isJson {v : Value} (json : v.IsJson) {t : Text}
    (h : v.source = .ok (some t)) : Literal.evaluate t = some v.datum.asLiteral :=
  Literal.evaluate_of_readsPart (v.encodable_source h) fun _ hn =>
    (v.readsPart_source json h hn).mono fun _ h => h.denotes.value

/-- Where a value that a table decodes to, or an entry of such a value, is written into a program,
the text is evaluated to what JSON text for the value stands for, but for the properties
`__proto__`: an object has none, at any depth, and takes the value of the property as its prototype,
if that can be one. So the two are the same exactly if no object in the value has such a
property. -/
theorem Literal.evaluate_source {label key : Text} {codes : List Code} {table : Value}
    (decoded : (Table.decode label key codes).outcome = .ok table) {v : Value}
    (entry : v = table ∨ ∃ name, table.field name = .ok (some v)) {t : Text}
    (written : v.source = .ok (some t)) :
    Literal.evaluate t = some v.datum.asLiteral ∧
      (Literal.evaluate t = some v.datum ↔ v.datum.ownsPrototype = false) := by
  have hjson : v.IsJson := by
    have htable := Table.isJson_of_decode decoded
    rcases entry with rfl | ⟨name, hfield⟩
    · exact htable
    · exact htable.field hfield
  have hvalue := Value.evaluate_of_isJson hjson written
  refine ⟨hvalue, ?_⟩
  rw [hvalue, Option.some.injEq, Datum.asLiteral_eq_iff]

/-- An object that names the prototype, and has an object in it that does. -/
def twiceNamed : Value :=
  .object [(.text "__proto__".toText, .array [.number (.int 1)]),
    (.text "a".toText, .object [(.text "__proto__".toText, .number (.int (-2))),
      (.text "b".toText, .text "x".toText)])]

/-- Decoded from a table that was encoded with a key. Only the array becomes a prototype, and neither
object has the property. -/
theorem Literal.evaluate_source_twiceNamed :
    let key := Utf8.encode "key".toText
    let t := "\x7b\"__proto__\": [1], \"a\": \x7b\"__proto__\": -2, \"b\": \"x\"\x7d\x7d".toText
    (Table.decode "t".toText (Base64.encode key) (Table.encode .compact key twiceNamed)).outcome =
        .ok twiceNamed ∧
      twiceNamed.source = .ok (some t) ∧
      Literal.evaluate t = some (.object (some (.array [.number (Number.int 1).double]))
        [(Utf16.encode "a".toText,
          .object none [(Utf16.encode "b".toText, .string (Utf16.encode "x".toText))])]) ∧
      Literal.evaluate t ≠ some twiceNamed.datum := by
  intro key t
  have decoded := Table.decode_encode "t".toText .compact key
    (show twiceNamed.isPortable = true by decide)
  have written : twiceNamed.source = .ok (some t) := rfl
  obtain ⟨hvalue, hsame⟩ := Literal.evaluate_source decoded (.inl rfl) written
  refine ⟨decoded, written, hvalue, fun heq => ?_⟩
  exact absurd (hsame.mp heq) (by decide)

end Unproxy
