import DirectiveTemplates.Markup.Node
import DirectiveTemplates.Markup.Tag

/-!
Documents as they are written: markup with every choice of a writer, the white space, the quotes
and the case of end tags. A well-formed document has one meaning, a forest with spans.
-/
namespace DirectiveTemplates.Markup

open Text

structure WrittenValue where
  before : List Char
  behind : List Char
  quote : Char
  text : List Char

structure WrittenAttribute where
  space : List Char
  name : List Char
  value : Option WrittenValue

structure WrittenTag where
  name : List Char
  attributes : List WrittenAttribute
  space : List Char

structure WrittenEnd where
  name : List Char
  space : List Char

inductive Written where
  | text (value : List Char)
  | comment (value : List Char)
  /-- The content of an instruction has white space around it. -/
  | instruction (target before content behind : List Char)
  /-- An element without content: it ends with a slash, or it is void. -/
  | closed (tag : WrittenTag) (slash : Bool)
  | raw (tag : WrittenTag) (content : List Char) (stop : WrittenEnd)
  | element (tag : WrittenTag) (children : List Written) (stop : WrittenEnd)

/-! The text of a document. -/

def WrittenValue.opening (v : WrittenValue) : List Char := v.before ++ '=' :: v.behind ++ [v.quote]

def WrittenValue.write (v : WrittenValue) : List Char := v.opening ++ v.text ++ [v.quote]

def WrittenAttribute.write (a : WrittenAttribute) : List Char :=
  a.space ++ a.name ++ (a.value.map WrittenValue.write).getD []

def tagEnd (slash : Bool) : List Char := if slash then ['/', '>'] else ['>']

def WrittenTag.write (t : WrittenTag) (slash : Bool) : List Char :=
  '<' :: t.name ++ t.attributes.flatMap WrittenAttribute.write ++ t.space ++ tagEnd slash

def WrittenEnd.write (e : WrittenEnd) : List Char := '<' :: '/' :: e.name ++ e.space ++ ['>']

namespace Written

mutual

def write : Written → List Char
  | text value => value
  | comment value => ['<', '!', '-', '-'] ++ value ++ ['-', '-', '>']
  | instruction target before content behind =>
    ['<', '?'] ++ target ++ (before ++ content ++ behind) ++ ['?', '>']
  | closed tag slash => tag.write slash
  | raw tag content stop => tag.write false ++ content ++ stop.write
  | element tag children stop => tag.write false ++ writeAll children ++ stop.write

def writeAll : List Written → List Char
  | [] => []
  | d :: ds => d.write ++ writeAll ds

end

end Written

/-! The meaning of a document whose text starts at an offset. -/

def WrittenAttribute.meaning (o : Nat) (a : WrittenAttribute) : Attribute :=
  let start := o + byteLength a.space
  let nameSpan : Span := ⟨start, start + byteLength a.name⟩
  match a.value with
  | none => ⟨String.ofList a.name, "", nameSpan, nameSpan, none⟩
  | some v =>
    let valueStart := nameSpan.stop + byteLength v.opening
    let valueSpan : Span := ⟨valueStart, valueStart + byteLength v.text⟩
    ⟨String.ofList a.name, String.ofList v.text,
      ⟨start, valueSpan.stop + byteLength [v.quote]⟩, nameSpan, some valueSpan⟩

def attributesFrom (o : Nat) : List WrittenAttribute → List Attribute
  | [] => []
  | a :: as => a.meaning o :: attributesFrom (o + byteLength a.write) as

/-- The name and the value of an attribute; without a value it is empty. -/
def WrittenAttribute.entry (a : WrittenAttribute) : String × String :=
  (String.ofList a.name, String.ofList ((a.value.map WrittenValue.text).getD []))

theorem entries_attributesFrom (o : Nat) (as : List WrittenAttribute) :
    (attributesFrom o as).map (fun a => (a.name, a.value)) = as.map WrittenAttribute.entry := by
  induction as generalizing o with
  | nil => rfl
  | cons a as ih =>
    have first : ((a.meaning o).name, (a.meaning o).value) = a.entry := by
      cases value : a.value with
      | none => simp [WrittenAttribute.meaning, WrittenAttribute.entry, value]
      | some v => simp [WrittenAttribute.meaning, WrittenAttribute.entry, value]
    rw [attributesFrom, List.map_cons, List.map_cons, ih, first]

def WrittenTag.meaning (o : Nat) (slash : Bool) (t : WrittenTag) : StartTag :=
  let nameSpan : Span := ⟨o + byteLength ['<'], o + byteLength ['<'] + byteLength t.name⟩
  ⟨String.ofList t.name, attributesFrom nameSpan.stop t.attributes, slash,
    ⟨o, o + byteLength (t.write slash)⟩, nameSpan⟩

@[simp] theorem WrittenTag.start_meaning (t : WrittenTag) (o : Nat) (slash : Bool) :
    (t.meaning o slash).span.start = o := rfl

namespace Written

/-- Raw text as a node; empty text is no node. -/
def rawNode (o : Nat) (content : List Char) : Option TextNode :=
  if content = [] then none else some ⟨String.ofList content, ⟨o, o + byteLength content⟩⟩

mutual

def meaning (o : Nat) : Written → Node
  | text value => .text ⟨String.ofList value, ⟨o, o + byteLength value⟩⟩
  | comment value =>
    .comment ⟨String.ofList value, ⟨o, o + byteLength (comment value).write⟩⟩
  | instruction target before content behind =>
    let start := o + byteLength ['<', '?'] + byteLength target + byteLength before
    .instruction ⟨String.ofList target, String.ofList content,
      ⟨o, o + byteLength (instruction target before content behind).write⟩,
      ⟨start, start + byteLength content⟩⟩
  | closed tag slash =>
    .element (tag.meaning o slash) ⟨o, o + byteLength (tag.write slash)⟩ none []
  | raw tag content stop =>
    let inside := o + byteLength (tag.write false)
    let ending := inside + byteLength content
    .element (tag.meaning o false) ⟨o, ending + byteLength stop.write⟩
      (some ⟨ending, ending + byteLength stop.write⟩)
      ((rawNode inside content).toList.map .text)
  | element tag children stop =>
    let inside := o + byteLength (tag.write false)
    let ending := inside + byteLength (writeAll children)
    .element (tag.meaning o false) ⟨o, ending + byteLength stop.write⟩
      (some ⟨ending, ending + byteLength stop.write⟩) (meaningAll inside children)

def meaningAll (o : Nat) : List Written → List Node
  | [] => []
  | d :: ds => d.meaning o :: meaningAll (o + byteLength d.write) ds

end

end Written

/-! Well-formed documents. -/

/-- Text in which no construct starts. -/
structure IsPlain (cs : List Char) : Prop where
  declaration : ¬ ['<', '!'] <:+: cs
  instruction : ¬ ['<', '?'] <:+: cs
  openTag : ∀ c, isNameStart c = true → ¬ ['<', c] <:+: cs
  closeTag : ∀ c, isNameStart c = true → ¬ ['<', '/', c] <:+: cs

def IsSpace (cs : List Char) : Prop := ∀ c ∈ cs, isMarkupSpace c = true

def IsBlank (cs : List Char) : Prop := ∀ c ∈ cs, isBlank c = true

structure WrittenValue.WellFormed (v : WrittenValue) : Prop where
  before : IsSpace v.before
  behind : IsSpace v.behind
  quote : isQuote v.quote = true
  text : v.quote ∉ v.text

structure WrittenAttribute.WellFormed (a : WrittenAttribute) : Prop where
  spaced : a.space ≠ []
  space : IsSpace a.space
  named : a.name ≠ []
  name : ∀ c ∈ a.name, isNameEnd c = false
  value : ∀ v, a.value = some v → v.WellFormed

structure WrittenTag.WellFormed (t : WrittenTag) : Prop where
  letter : ∃ c cs, t.name = c :: cs ∧ isNameStart c = true
  name : ∀ c ∈ t.name, isNameEnd c = false
  attributes : ∀ a ∈ t.attributes, a.WellFormed
  space : IsSpace t.space

/-- The end tag of an element has its name in any case. -/
structure WrittenEnd.WellFormed (name : List Char) (e : WrittenEnd) : Prop where
  name : lowerAscii e.name = lowerAscii name
  space : IsSpace e.space

/-- The content of an instruction is trimmed, and white space that cannot be in a target parts it
from the target. White space around no content stands before it. -/
structure InstructionWellFormed (target before content behind : List Char) : Prop where
  named : ∀ c ∈ target, isMarkupSpace c = false ∧ c ≠ '?' ∧ c ≠ '>'
  blankBefore : IsBlank before
  blankBehind : IsBlank behind
  separated : before = [] → content = []
  space : ∀ c cs, before = c :: cs → isMarkupSpace c = true
  behind : content = [] → behind = []
  trimmed : trim content = content
  closing : ¬ ['?', '>'] <:+: content

namespace Written

def isText : Written → Bool
  | text _ => true
  | _ => false

def startsText : List Written → Bool
  | [] => false
  | d :: _ => d.isText

mutual

def WellFormed : Written → Prop
  | text value => value ≠ [] ∧ IsPlain value
  | comment value => ¬ ['-', '-', '>'] <:+: value
  | instruction target before content behind => InstructionWellFormed target before content behind
  | closed tag slash => tag.WellFormed ∧ (slash = true ∨ isVoid (String.ofList tag.name) = true)
  | raw tag content stop =>
    tag.WellFormed ∧ isRawText (String.ofList tag.name) = true ∧
      ¬ '<' :: '/' :: lowerAscii tag.name <:+: lowerAscii content ∧ stop.WellFormed tag.name
  | element tag children stop =>
    tag.WellFormed ∧ isVoid (String.ofList tag.name) = false ∧
      isRawText (String.ofList tag.name) = false ∧ AllWellFormed children ∧
      stop.WellFormed tag.name

def AllWellFormed : List Written → Prop
  | [] => True
  | d :: ds => d.WellFormed ∧ (d.isText = true → startsText ds = false) ∧ AllWellFormed ds

end

end Written

end DirectiveTemplates.Markup
