import DirectiveTemplates.Proofs.Binding.Serialized
import DirectiveTemplates.Proofs.OrderedMap

/-!
Class tables over runs of operations. In every table that operations can make, signatures stand
under the classes they name and attributes under their own names. So a table is known by what was
written last for each class, and it reads back from its JSON form.
-/
namespace DirectiveTemplates

open Json Json.Decoder

def Signature.Keyed (s : Signature) : Prop := ∀ e ∈ s.attributes.entries, e.2.name = e.1

namespace ClassTable

/-- Each signature names the class that it is the entry for, and its attributes stand under their
names. -/
def Keyed (t : ClassTable) : Prop :=
  ∀ e ∈ t.classes.entries, ∀ s ∈ e.2, s.owner = e.1 ∧ s.Keyed

inductive Declaration where
  | written (text : String)
  | made (name owner : String) (attributes : List AttributeSpec) (contentSetter : Option String)
    (ignoresContent : Bool)

def Declaration.signature? : Declaration → Option Signature
  | written text => Signature.decoder.run text
  | made name owner attributes contentSetter ignoresContent =>
    some ⟨name, owner, Signature.attributesOf attributes, contentSetter, ignoresContent⟩

inductive Operation where
  | standard
  /-- Puts a table that is written as JSON in its place. -/
  | load (text : String)
  /-- Merges a table that other operations made. -/
  | merge (other : List Operation)
  | addClass (name : String)
  | addDirective (d : Declaration)

mutual

/-- The table after an operation. What cannot be decoded changes nothing. -/
def perform (t : ClassTable) : Operation → ClassTable
  | .standard => standard
  | .load text => (ofText? text).getD t
  | .merge other => t.merge (performAll empty other)
  | .addClass name => t.addClass name
  | .addDirective d => (d.signature?.map t.addDirective).getD t

def performAll (t : ClassTable) : List Operation → ClassTable
  | [] => t
  | o :: os => performAll (perform t o) os

end

def after (operations : List Operation) : ClassTable := performAll empty operations

/-- The entries written so far, when the table was not put into the place of another since. -/
abbrev History := List (String × Option Signature)

/-- What an operation adds to the history. A class that is known is not written when it is added,
and a table that takes the place of another starts a new history. -/
def Operation.writes (earlier : History) : Operation → History
  | standard => ClassTable.standard.classes.entries
  | load text =>
    match ofText? text with
    | some t => t.classes.entries
    | none => earlier
  | merge other => earlier ++ (after other).classes.entries
  | addClass name =>
    if name ∈ earlier.map Prod.fst then earlier else earlier ++ [(name, none)]
  | addDirective d => earlier ++ d.signature?.toList.map fun s => (s.owner, some s)

def history (operations : List Operation) : History := operations.foldl Operation.writes []

end ClassTable

/-! What is decoded has its names in order. -/

theorem Signature.keyed_attributesOf (as : List AttributeSpec) :
    ∀ e ∈ (attributesOf as).entries, e.2.name = e.1 := by
  apply OrderedMap.forall_mem_insertAll
  · intro e mem
    cases mem
  · intro e mem
    obtain ⟨a, _, rfl⟩ := List.mem_map.mp mem
    rfl

theorem Signature.keyed_of_decoder {depth : Nat} {d : Document} {s : Signature}
    (read : decoder depth d = some s) : s.Keyed := by
  simp only [decoder, Option.bind_eq_bind, Option.bind_eq_some_iff] at read
  obtain ⟨fs, _, attributes, _, name, _, owner, _, setter, _, ignores, _, made⟩ := read
  cases made
  exact keyed_attributesOf attributes

theorem Json.Decoder.exists_of_mapM {f : α → Option β} {xs : List α} {ys : List β}
    (read : xs.mapM f = some ys) : ∀ y ∈ ys, ∃ x, f x = some y := by
  induction xs generalizing ys with
  | nil =>
    cases read
    intro y mem
    cases mem
  | cons x xs ih =>
    simp only [List.mapM_cons, Option.bind_eq_bind, Option.bind_eq_some_iff] at read
    obtain ⟨first, here, others, later, made⟩ := read
    cases made
    exact List.forall_mem_cons.mpr ⟨⟨x, here⟩, ih later⟩

/-- The values of a map are read one by one. -/
theorem Json.Decoder.exists_of_map {item : Decoder α} {depth : Nat} {d : Document}
    {m : OrderedMap α} (read : Decoder.map item depth d = some m) :
    ∀ e ∈ m.entries, ∃ depth d, item depth d = some e.2 := by
  unfold Decoder.map at read
  split at read
  · rename_i depth ms
    simp only [Option.bind_eq_bind, Option.bind_eq_some_iff] at read
    obtain ⟨named, _, es, each, made⟩ := read
    cases made
    apply OrderedMap.forall_mem_insertAll
    · intro e mem
      cases mem
    · intro e mem
      obtain ⟨member, value⟩ := exists_of_mapM each e mem
      obtain ⟨x, here, rfl⟩ := Option.map_eq_some_iff.mp value
      exact ⟨depth, member.2, here⟩
  · cases read

namespace ClassTable

theorem keyed_of_entryDecoder {depth : Nat} {d : Document} {entry : Option Signature}
    (read : entryDecoder depth d = some entry) : ∀ s ∈ entry, s.Keyed := by
  simp only [entryDecoder, Option.bind_eq_bind, Option.bind_eq_some_iff] at read
  obtain ⟨fs, _, read⟩ := read
  unfold Fields.get? Fields.getD at read
  split at read
  · unfold nullable at read
    split at read
    · cases read
      intro s mem
      cases mem
    · obtain ⟨s, here, same⟩ := Option.map_eq_some_iff.mp read
      cases same
      intro s' mem
      cases mem
      exact Signature.keyed_of_decoder here
  · cases read
    intro s mem
    cases mem

theorem keyed_withOwners {m : OrderedMap (Option Signature)}
    (each : ∀ e ∈ m.entries, ∀ s ∈ e.2, s.Keyed) : (withOwners ⟨m⟩).Keyed := by
  intro e mem s found
  obtain ⟨e', mem', rfl⟩ := List.mem_map.mp mem
  obtain ⟨s', found', rfl⟩ := Option.map_eq_some_iff.mp found
  exact ⟨rfl, each e' mem' s' found'⟩

theorem keyed_of_ofText? {text : String} {t : ClassTable} (read : ofText? text = some t) :
    t.Keyed := by
  obtain ⟨d, _, decoded⟩ := Option.bind_eq_some_iff.mp read
  simp only [decoder, Option.bind_eq_bind, Option.bind_eq_some_iff] at decoded
  obtain ⟨fs, _, m, field, made⟩ := decoded
  cases made
  apply keyed_withOwners
  unfold Fields.getD at field
  split at field
  · intro e mem
    obtain ⟨depth, d, entry⟩ := exists_of_map field e mem
    exact keyed_of_entryDecoder entry
  · cases field
    intro e mem
    cases mem

theorem Declaration.keyed {d : Declaration} {s : Signature} (made : d.signature? = some s) :
    s.Keyed := by
  cases d with
  | written text =>
    obtain ⟨d, _, read⟩ := Option.bind_eq_some_iff.mp made
    exact Signature.keyed_of_decoder read
  | made name owner attributes contentSetter ignoresContent =>
    cases made
    exact Signature.keyed_attributesOf attributes

/-! Every operation keeps the names in order. -/

namespace Keyed

variable {t : ClassTable}

theorem empty : ClassTable.empty.Keyed := by
  intro e mem
  cases mem

theorem merge (h : t.Keyed) {other : ClassTable} (h' : other.Keyed) : (t.merge other).Keyed :=
  OrderedMap.forall_mem_insertAll h h'

theorem insert (h : t.Keyed) {name : String} {entry : Option Signature}
    (new : ∀ s ∈ entry, s.owner = name ∧ s.Keyed) :
    Keyed ⟨t.classes.insert name entry⟩ := by
  have single : ∀ e ∈ [(name, entry)], ∀ s ∈ e.2, s.owner = e.1 ∧ s.Keyed := by simpa using new
  exact OrderedMap.forall_mem_insertAll h single

theorem addClass (h : t.Keyed) (name : String) : (t.addClass name).Keyed := by
  unfold ClassTable.addClass
  split
  · exact h
  · exact h.insert (by simp)

theorem addDirective (h : t.Keyed) {s : Signature} (keyed : s.Keyed) :
    (t.addDirective s).Keyed :=
  h.insert (by simpa using keyed)

theorem standard : ClassTable.standard.Keyed := by
  have forEach : forEachSignature.Keyed := Signature.keyed_attributesOf _
  have conditional : conditionalSignature.Keyed := Signature.keyed_attributesOf _
  have text : textSignature.Keyed := Signature.keyed_attributesOf _
  exact ((empty.addDirective forEach).addDirective conditional).addDirective text

mutual

theorem perform {t : ClassTable} (h : t.Keyed) : (o : Operation) → (t.perform o).Keyed
  | .standard => standard
  | .load text => by
    rw [ClassTable.perform]
    cases read : ofText? text with
    | some t' => exact keyed_of_ofText? read
    | none => exact h
  | .merge other => h.merge (performAll empty other)
  | .addClass name => h.addClass name
  | .addDirective d => by
    rw [ClassTable.perform]
    cases made : d.signature? with
    | some s => exact h.addDirective (Declaration.keyed made)
    | none => exact h

theorem performAll {t : ClassTable} (h : t.Keyed) :
    (operations : List Operation) → (t.performAll operations).Keyed
  | [] => h
  | o :: operations => (h.perform o).performAll operations

end

end Keyed

/-! What was written for a class. -/

theorem WrittenBy.perform {t : ClassTable} {earlier : History} (h : t.classes.WrittenBy earlier)
    (o : Operation) : (t.perform o).classes.WrittenBy (o.writes earlier) := by
  cases o with
  | standard => exact ClassTable.standard.classes.writtenBy_entries
  | load text =>
    rw [ClassTable.perform, Operation.writes]
    cases ofText? text with
    | some t' => exact t'.classes.writtenBy_entries
    | none => exact h
  | merge other => exact h.insertAll _
  | addClass name =>
    have known : (t.describe name).isSome = true ↔ name ∈ earlier.map Prod.fst :=
      h.isSome_get? name
    rw [ClassTable.perform, Operation.writes, ClassTable.addClass]
    by_cases written : name ∈ earlier.map Prod.fst
    · rw [if_pos (known.mpr written), if_pos written]
      exact h
    · rw [if_neg (fun some => written (known.mp some)), if_neg written]
      exact h.insert name none
  | addDirective d =>
    rw [ClassTable.perform, Operation.writes]
    cases d.signature? with
    | some s => exact h.insert s.owner (some s)
    | none => simpa using h

theorem writtenBy_history (operations : List Operation) :
    (after operations).classes.WrittenBy (history operations) := by
  have run (operations : List Operation) {t : ClassTable} {earlier : History}
      (h : t.classes.WrittenBy earlier) :
      (t.performAll operations).classes.WrittenBy (operations.foldl Operation.writes earlier) := by
    induction operations generalizing t earlier with
    | nil => exact h
    | cons o operations ih => exact ih (WrittenBy.perform h o)
  exact run operations OrderedMap.writtenBy_empty

end ClassTable

/-! Reading back. -/

theorem Json.Decoder.decodes_bool (b : Bool) : Decodes Decoder.bool (.bool b) b := fun _ _ => rfl

theorem AttributeRole.decodes (role : AttributeRole) :
    Decodes decoder (.string role.name) role := by
  intro depth _
  cases role <;> rfl

theorem AttributeSpec.decodes (a : AttributeSpec) : Decodes decoder a.toJson a := by
  apply decodes_record (by simp) (by simp)
  intro depth shallow
  have name := Fields.get_ofMembers "name" (decodes_string a.name) rfl shallow
  have role := Fields.get_ofMembers "kind" a.role.decodes rfl shallow
  have required := Fields.getD_ofMembers "required" (decodes_bool a.required) rfl shallow true
  have setter := Fields.get_ofMembers "setterName" (decodes_string a.setter) rfl shallow
  have type := Fields.getD_ofMembers "valueType" (a.type.decodes false) rfl shallow .unknown
  simp [name, role, required, setter, type]

namespace Signature

theorem attributesOf_values {s : Signature} (keyed : s.Keyed) :
    attributesOf s.attributes.values = s.attributes := by
  have entries : s.attributes.values.map (fun a => (a.name, a)) = s.attributes.entries := by
    have same : ∀ e ∈ s.attributes.entries, (e.2.name, e.2) = e :=
      fun e mem => Prod.ext (keyed e mem) rfl
    rw [OrderedMap.values, List.map_map]
    exact (List.map_congr_left same).trans (List.map_id _)
  rw [attributesOf, entries]
  exact s.attributes.ofList_entries

/-- The record of a signature. The content setter is left out when there is none. -/
def members (s : Signature) : List (String × Value) :=
  [("name", .string s.name), ("owningClassName", .string s.owner),
    ("attributes", .array (s.attributes.values.map AttributeSpec.toJson))] ++
    (s.contentSetter.toList.map fun name => ("contentSetterName", .string name)) ++
    [("ignoreContent", .bool s.ignoresContent)]

theorem toJson_eq (s : Signature) : s.toJson = .object s.members := rfl

theorem decodes {s : Signature} (keyed : s.Keyed) : Decodes decoder s.toJson s := by
  rw [toJson_eq]
  apply decodes_record
  · cases h : s.contentSetter <;> simp [members, h]
  · cases h : s.contentSetter <;> simp [members, h]
  intro depth shallow
  have name := Fields.get_ofMembers "name" (decodes_string s.name) rfl shallow
  have owner := Fields.getD_ofMembers "owningClassName" (decodes_string s.owner) rfl shallow ""
  have attributes := Fields.getD_ofMembers "attributes"
    (decodes_list fun a (_ : a ∈ s.attributes.values) => a.decodes) rfl shallow []
  have setter : (Fields.ofMembers depth s.members).get? "contentSetterName" Decoder.string =
      some s.contentSetter := by
    apply Fields.get?_ofMembers_string
    cases h : s.contentSetter <;> simp [members, h, List.lookup_cons]
  have last : s.members.lookup "ignoreContent" = some (.bool s.ignoresContent) := by
    cases h : s.contentSetter <;> simp [members, h, List.lookup_cons]
  have ignores := Fields.getD_ofMembers "ignoreContent" (decodes_bool s.ignoresContent) last
    shallow false
  simp [name, owner, attributes, setter, ignores, attributesOf_values keyed]

theorem toJson_integral (s : Signature) : s.toJson.Integral := by
  have attributes : Value.IntegralAll (s.attributes.values.map AttributeSpec.toJson) := by
    rw [Value.integralAll_iff]
    intro v mem
    obtain ⟨a, _, rfl⟩ := List.mem_map.mp mem
    simp [AttributeSpec.toJson, Value.Integral, Value.IntegralMembers, a.type.toJson_integral]
  rw [toJson_eq, Value.Integral, Value.integralMembers_iff]
  cases h : s.contentSetter <;> simp [members, h, Value.Integral, attributes]

end Signature

namespace ClassTable

theorem decodes_entry {entry : Option Signature} (keyed : ∀ s ∈ entry, s.Keyed) :
    Decodes entryDecoder (entryToJson entry) entry := by
  apply decodes_record
  · cases entry <;> simp
  · cases entry <;> simp
  intro depth shallow
  cases entry with
  | none => rfl
  | some s =>
    have nested : s.toJson.nesting ≤ depth := by
      simpa [Value.nestingMembers] using shallow
    simp only [Fields.get?, Fields.getD, lookup_ofMembers]
    have read := Signature.decodes (keyed s rfl) depth nested
    rw [Signature.toJson_eq, Document.ofValue] at read
    exact congrArg (Option.map some) read

theorem withOwners_of_keyed {t : ClassTable} (keyed : t.Keyed) : t.withOwners = t := by
  have same : ∀ e ∈ t.classes.entries,
      (e.1, e.2.map fun s : Signature => { s with owner := e.1 }) = e := by
    intro e mem
    obtain ⟨name, entry⟩ := e
    cases entry with
    | none => rfl
    | some s =>
      have owner : s.owner = name := (keyed _ mem s rfl).1
      subst owner
      rfl
  have classes : t.withOwners.classes = t.classes :=
    OrderedMap.ext_entries ((List.map_congr_left same).trans (List.map_id _))
  cases t
  exact congrArg ClassTable.mk classes

theorem decodes {t : ClassTable} (keyed : t.Keyed) : Decodes decoder t.toJson t := by
  apply decodes_record (by simp) (by simp)
  intro depth shallow
  have entries : ∀ e ∈ t.classes.entries, Decodes entryDecoder (entryToJson e.2) e.2 := by
    intro e mem
    exact decodes_entry fun s found => (keyed e mem s found).2
  have classes := Fields.getD_ofMembers "classes" (decodes_map entries) rfl shallow .empty
  simp [classes, withOwners_of_keyed keyed]

theorem toJson_integral (t : ClassTable) : t.toJson.Integral := by
  have classes : Value.IntegralMembers
      (t.classes.entries.map fun e => (e.1, entryToJson e.2)) := by
    rw [Value.integralMembers_iff]
    intro m mem
    obtain ⟨⟨name, entry⟩, _, rfl⟩ := List.mem_map.mp mem
    cases entry with
    | none => trivial
    | some s => exact ⟨s.toJson_integral, trivial⟩
  exact ⟨classes, trivial⟩

theorem ofText?_written (l : Layout) {t : ClassTable} (keyed : t.Keyed)
    (shallow : t.toJson.nesting ≤ depthLimit) :
    ofText? (String.ofList (t.toJson.written l 0)) = some t := by
  have blank : ∀ c ∈ ([] : List Char), Json.isSpace c = true := by simp
  have parsed := Document.parse?_written l t.toJson_integral blank
  rw [List.append_nil] at parsed
  rw [ofText?, Decoder.run, parsed]
  exact decodes keyed depthLimit shallow

/-- After every run of operations signatures and attributes stand under their names, a class has
the entry that was written for it last, in the place where it was written first, and the table reads
back from its JSON text when that nests no deeper than documents may. -/
theorem table_after (operations : List Operation) :
    let t := after operations
    t.Keyed ∧
    (∀ name, t.describe name = (history operations).reverse.lookup name) ∧
    t.classes.keys = ((history operations).map Prod.fst).eraseDups ∧
    (t.toJson.nesting ≤ 127 →
      ofText? t.toJson.compactText = some t ∧ ofText? t.toJson.prettyText = some t) := by
  intro t
  have keyed : t.Keyed := Keyed.empty.performAll operations
  have written := writtenBy_history operations
  refine ⟨keyed, written.get?, written.keys, ?_⟩
  intro shallow
  have compact := ofText?_written .tight keyed shallow
  have pretty := ofText?_written .lines keyed shallow
  rw [← Value.compact_eq] at compact
  rw [← Value.pretty_eq] at pretty
  exact ⟨compact, pretty⟩

/-- A run with every operation: a class that is known before it becomes a directive, a merged table
that was replaced on its way, and a text that is no table. -/
def mixedRun : List Operation :=
  [.standard, .addClass "app.Item",
    .addDirective (.made "item" "app.Item"
      [⟨"of", .computation, true, "set_of", .array .unknown⟩] none true),
    .merge [.addClass "app.Page", .load "\x7b\"classes\":\x7b\"app.Text\":\x7b\x7d\x7d\x7d"],
    .addClass "app.Item", .load "\x7b"]

theorem table_after_mixedRun :
    (after mixedRun).toJson.nesting ≤ 127 ∧
      ofText? (after mixedRun).toJson.compactText = some (after mixedRun) := by
  have shallow : (after mixedRun).toJson.nesting ≤ 127 := by decide +kernel
  exact ⟨shallow, ((table_after mixedRun).2.2.2 shallow).1⟩

end ClassTable

end DirectiveTemplates
