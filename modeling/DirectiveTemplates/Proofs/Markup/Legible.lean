import DirectiveTemplates.Proofs.Markup.Forest
import DirectiveTemplates.Proofs.Markup.Tags

/-!
Forests that were read without a problem can be written again: names are names, and the content of
a raw text element is text that does not hold the end tag of the element.
-/
namespace DirectiveTemplates.Markup

open Text

def IsName (name : String) : Prop := name ≠ "" ∧ ∀ c ∈ name.toList, isNameEnd c = false

/-- The name of an element and the names of its attributes, as they can stand in a start tag. -/
structure IsTag (name : String) (attributes : List String) : Prop where
  letter : ∃ c cs, name.toList = c :: cs ∧ isNameStart c = true
  name : ∀ c ∈ name.toList, isNameEnd c = false
  attributes : ∀ a ∈ attributes, IsName a

/-- Text in which no end tag of an element starts. -/
def FreeOfEnd (name value : List Char) : Prop :=
  ¬ '<' :: '/' :: lowerAscii name <:+: lowerAscii value

def IsRawContent (name : String) (children : List Node) : Prop :=
  ∃ raw : Option TextNode, children = raw.toList.map .text ∧
    ∀ t ∈ raw, FreeOfEnd name.toList t.value.toList

mutual

def Node.Legible : Node → Prop
  | .element tag _ _ children =>
    IsTag tag.name (tag.attributes.map Attribute.name) ∧
      (isRawText tag.name = true → IsRawContent tag.name children) ∧ LegibleAll children
  | .text _ => True
  | .comment _ => True
  | .instruction _ => True

def LegibleAll : List Node → Prop
  | [] => True
  | n :: ns => n.Legible ∧ LegibleAll ns

end

theorem legibleAll_iff {ns : List Node} : LegibleAll ns ↔ ∀ n ∈ ns, n.Legible := by
  induction ns with
  | nil => simp [LegibleAll]
  | cons n ns ih => simp [LegibleAll, ih]

theorem legibleAll_raw (raw : Option TextNode) : LegibleAll (raw.toList.map .text) := by
  cases raw with
  | none => trivial
  | some t => exact ⟨trivial, trivial⟩

/-! What the readers find. -/

theorem not_mem_of_textUntil (class? : Char → Bool) (start : Cursor) :
    ∀ c ∈ start.textUntil (startsWithAny class?), class? c = false := by
  unfold Cursor.textUntil
  induction start.rest with
  | nil => simp [breakAt]
  | cons d ds ih =>
    cases here : class? d with
    | true => simp [breakAt, startsWithAny, here]
    | false =>
      simp only [breakAt, startsWithAny, here, Bool.false_eq_true, if_false, List.mem_cons,
        forall_eq_or_imp]
      exact ⟨trivial, ih⟩

theorem freeOfEnd_textUntil (name : List Char) (start : Cursor) :
    FreeOfEnd name (start.textUntil (startsEndTag name)) := by
  unfold FreeOfEnd Cursor.textUntil
  induction start.rest with
  | nil => simp [breakAt, lowerAscii]
  | cons c cs ih =>
    rw [breakAt]
    split
    · simp [lowerAscii]
    · rename_i goesOn
      intro found
      rcases List.infix_cons_iff.mp found with starts | later
      · apply goesOn
        rw [startsEndTag_iff]
        have whole := breakAt_append (startsEndTag name) cs
        rw [← whole]
        exact starts.trans (by simp [lowerAscii])
      · exact ih later

theorem isName_readAttribute {start : Cursor} (named : start.name ≠ []) :
    IsName (readAttribute start).found.name := by
  have name : (readAttribute start).found.name = String.ofList start.name := by
    simp only [readAttribute]
    split <;> rfl
  rw [name]
  constructor
  · intro empty
    apply named
    rw [← String.toList_ofList (l := start.name), empty]
    rfl
  · rw [String.toList_ofList]
    exact not_mem_of_textUntil isNameEnd start

theorem isName_readAttributes (tag : Cursor) (name : String) (steps : Nat) (c : Cursor) :
    ∀ a ∈ (readAttributes tag name steps c).attributes, IsName a.name := by
  induction steps generalizing c with
  | zero => simp [readAttributes]
  | succ steps ih =>
    simp only [readAttributes]
    split
    · simp
    · simp
    · simp
    · simp
    · rename_i bad cs _ _ _ rest
      cases ended : isNameEnd bad with
      | true => exact ih _
      | false =>
        intro a mem
        rcases List.mem_cons.mp mem with rfl | mem
        · exact isName_readAttribute (name_ne_nil rest ended)
        · exact ih _ a mem

/-- The text goes on with the end tag of an element, or ends. -/
def Awaits (name : String) (c : Cursor) : Prop :=
  c.rest = [] ∨ startsEndTag name.toList c.rest = true

/-- A start tag as it can be written again, with raw text up to the end tag. -/
structure StartLegible (tag : StartTag) (raw : Option TextNode) (next : Cursor) : Prop where
  spelled : IsTag tag.name (tag.attributes.map Attribute.name)
  free : ∀ t ∈ raw, FreeOfEnd tag.name.toList t.value.toList
  awaits : tag.isClosed = false → isRawText tag.name = true → Awaits tag.name next

theorem readStartTag_legible {start : Cursor} (opens : Opens .openTag start.rest) :
    ∃ tag raw problems next, readStartTag start = ⟨.start tag raw, problems, next⟩ ∧
      StartLegible tag raw next := by
  obtain ⟨c, rest, eq, letter⟩ := opens
  have isTag (attributes : List Attribute) (all : ∀ a ∈ attributes, IsName a.name) :
      IsTag (String.ofList (start.skip 1).name) (attributes.map Attribute.name) := by
    refine ⟨⟨c, _, by rw [String.toList_ofList, name_of_letter eq letter], letter⟩, ?_,
      by simpa using all⟩
    rw [String.toList_ofList]
    exact not_mem_of_textUntil isNameEnd _
  have attributes := isName_readAttributes start (String.ofList (start.skip 1).name)
    ((start.skip 1).skipName.rest.length + 1) (start.skip 1).skipName
  unfold readStartTag
  simp only
  split
  · refine ⟨_, _, _, _, rfl, isTag _ attributes, ?_, ?_⟩
    · intro t mem
      unfold readRaw at mem
      split at mem
      · cases mem
      · cases mem
        rw [String.toList_ofList, String.toList_ofList]
        exact freeOfEnd_textUntil _ _
    · intro _ _
      unfold Awaits
      rw [String.toList_ofList]
      have stops := Cursor.stop_of_goUntil (readAttributes start
        (String.ofList (start.skip 1).name) ((start.skip 1).skipName.rest.length + 1)
        (start.skip 1).skipName).next (startsEndTag (start.skip 1).name)
      unfold readRaw
      split <;> exact stops
  · rename_i notRaw
    refine ⟨_, _, _, _, rfl, isTag _ attributes, by simp, ?_⟩
    intro content isRaw
    exact absurd (by simp [content, isRaw]) notRaw

theorem startLegible_of_readToken {start next : Cursor} {tag : StartTag} {raw : Option TextNode}
    {problems : List Diagnostic} (read : readToken start = ⟨.start tag raw, problems, next⟩) :
    StartLegible tag raw next := by
  have opens := opens_constructAt start.rest
  unfold readToken at read
  cases construct : constructAt start.rest with
  | openTag =>
    obtain ⟨tag', raw', problems', next', eq, legible⟩ :=
      readStartTag_legible (construct ▸ opens)
    rw [construct] at read
    simp only [eq, Lexeme.mk.injEq, Token.start.injEq] at read
    obtain ⟨⟨rfl, rfl⟩, -, rfl⟩ := read
    exact legible
  | comment => simp [construct, readComment] at read
  | cdata => simp [construct, readCdata] at read
  | declaration => simp [construct, readDeclaration] at read
  | instruction => simp [construct, readInstruction] at read
  | closeTag => simp [construct, readEndTag] at read
  | text => simp [construct, readText] at read

theorem readToken_of_startsEndTag {start : Cursor} {name : List Char}
    (letter : ∃ c cs, name = c :: cs ∧ isNameStart c = true)
    (starts : startsEndTag name start.rest = true) : readToken start = readEndTag start := by
  rw [readToken, constructAt_of_startsEndTag letter starts]

def positionsFrom : Nat → Cursor → List Cursor
  | 0, _ => []
  | count + 1, c => if c.rest.isEmpty then [] else c :: positionsFrom count (readToken c).next

def positions (source : String) : List Cursor :=
  positionsFrom source.toList.length ⟨0, source.toList⟩

theorem rest_ne_nil_of_mem {count : Nat} {c d : Cursor} (mem : d ∈ positionsFrom count c) :
    d.rest ≠ [] := by
  induction count generalizing c with
  | zero => cases mem
  | succ count ih =>
    unfold positionsFrom at mem
    split at mem
    · cases mem
    · rename_i more
      rcases List.mem_cons.mp mem with rfl | later
      · simpa using more
      · exact ih later

/-! What a builder makes of them. -/

structure OpenElement.Legible (e : OpenElement) : Prop where
  tag : IsTag e.tag.name (e.tag.attributes.map Attribute.name)
  raw : isRawText e.tag.name = true → IsRawContent e.tag.name e.children
  children : LegibleAll e.children

theorem OpenElement.Legible.append {e : OpenElement} (h : e.Legible)
    (plain : isRawText e.tag.name = false) {n : Node} (legible : n.Legible) :
    OpenElement.Legible { e with children := e.children ++ [n] } := by
  refine ⟨h.tag, ?_, ?_⟩
  · intro isRaw
    rw [plain] at isRaw
    exact absurd isRaw Bool.false_ne_true
  · rw [legibleAll_iff]
    intro n' mem
    rcases List.mem_append.mp mem with mem | mem
    · exact legibleAll_iff.mp h.children n' mem
    · rw [List.mem_singleton.mp mem]
      exact legible

namespace Builder

def Plain (b : Builder) : Prop := ∀ e ∈ b.stack, isRawText e.tag.name = false

structure Legible (b : Builder) : Prop where
  roots : LegibleAll b.roots
  elements : ∀ e ∈ b.stack, e.Legible
  outer : ∀ e ∈ b.stack.tail, isRawText e.tag.name = false

/-- Raw text is open only where its end tag comes next. -/
def Ready (b : Builder) (c : Cursor) : Prop :=
  b.Plain ∨ ∃ e ∈ b.stack, Awaits e.tag.name c

theorem problems_close (b : Builder) (name : String) (s : Span) :
    b.problems <+: (b.close name s).problems := by
  unfold close
  split
  · refine ⟨[], ?_⟩
    rw [List.append_nil, problems_endInnermost, problems_endInner]
  · exact List.prefix_append _ _

theorem problems_step (b : Builder) (l : Lexeme) : b.problems <+: (b.step l).problems := by
  have reported : b.problems <+: (b.report l.problems).problems := List.prefix_append _ _
  obtain ⟨token, problems, next⟩ := l
  cases token with
  | text t => simpa only [step, problems_add] using reported
  | comment t => simpa only [step, problems_add] using reported
  | instruction i => simpa only [step, problems_add] using reported
  | declaration s => exact reported
  | close name s => exact reported.trans (problems_close _ name s)
  | start tag raw =>
    simp only [step]
    split
    · rw [problems_add]
      exact reported
    · exact reported

theorem problems_foldl (b : Builder) (ls : List Lexeme) :
    b.problems <+: (ls.foldl step b).problems := by
  induction ls generalizing b with
  | nil => exact List.prefix_rfl
  | cons l ls ih => exact (b.problems_step l).trans (ih _)

/-- What tokens keep that report nothing holds at the end of a text without problems. -/
theorem foldl_of_clean {I : Builder → Cursor → Prop} (count : Nat) {b : Builder} {c : Cursor}
    (start : I b c)
    (step : ∀ b, ∀ d ∈ positionsFrom count c, I b d → (b.step (readToken d)).problems = [] →
      I (b.step (readToken d)) (readToken d).next)
    (clean : ((lexemesFrom count c).foldl Builder.step b).problems = []) :
    ∃ d, I ((lexemesFrom count c).foldl Builder.step b) d := by
  induction count generalizing b c with
  | zero => exact ⟨c, start⟩
  | succ count ih =>
    unfold positionsFrom at step
    unfold lexemesFrom at clean ⊢
    split
    · exact ⟨c, start⟩
    · rename_i more
      rw [if_neg more] at step clean
      have before := problems_foldl (b.step (readToken c)) (lexemesFrom count (readToken c).next)
      rw [List.foldl_cons] at clean
      rw [clean, List.prefix_nil] at before
      exact ih (step b c List.mem_cons_self start before)
        (fun b d mem => step b d (List.mem_cons_of_mem c mem)) clean

namespace Legible

variable {b : Builder}

theorem report (h : b.Legible) (ds : List Diagnostic) : (b.report ds).Legible :=
  ⟨h.roots, h.elements, h.outer⟩

theorem add (h : b.Legible) (plain : b.Plain) {n : Node} (legible : n.Legible) :
    (b.add n).Legible ∧ (b.add n).Plain := by
  obtain ⟨stack, roots, problems⟩ := b
  cases stack with
  | nil =>
    refine ⟨⟨?_, h.elements, h.outer⟩, plain⟩
    rw [legibleAll_iff]
    intro n' mem
    rcases List.mem_append.mp mem with mem | mem
    · exact legibleAll_iff.mp h.roots n' mem
    · rw [List.mem_singleton.mp mem]
      exact legible
  | cons e outer =>
    obtain ⟨first, rest⟩ := List.forall_mem_cons.mp plain
    obtain ⟨firstLegible, restLegible⟩ := List.forall_mem_cons.mp h.elements
    exact ⟨⟨h.roots, List.forall_mem_cons.mpr ⟨firstLegible.append first legible, restLegible⟩,
      h.outer⟩, List.forall_mem_cons.mpr ⟨first, rest⟩⟩

theorem endInnermost (h : b.Legible) (stop : Nat) (endSpan : Option Span) :
    (b.endInnermost stop endSpan).Legible ∧ (b.endInnermost stop endSpan).Plain := by
  obtain ⟨stack, roots, problems⟩ := b
  cases stack with
  | nil => exact ⟨h, fun e mem => absurd mem List.not_mem_nil⟩
  | cons e outer =>
    obtain ⟨first, rest⟩ := List.forall_mem_cons.mp h.elements
    have plain : Plain ⟨outer, roots, problems⟩ := h.outer
    have below : Legible ⟨outer, roots, problems⟩ :=
      ⟨h.roots, rest, fun e mem => plain e (List.mem_of_mem_tail mem)⟩
    exact below.add plain (n := .element e.tag ⟨e.tag.span.start, stop⟩ endSpan e.children)
      ⟨first.tag, first.raw, first.children⟩

theorem endInner (h : b.Legible) (stop n : Nat) : (b.endInner stop n).Legible := by
  induction n generalizing b with
  | zero => exact h
  | succ n ih => exact ih (h.endInnermost stop none).1

theorem close (h : b.Legible) (name : String) (s : Span) (clean : (b.close name s).problems = []) :
    (b.close name s).Legible ∧ (b.close name s).Plain := by
  unfold Builder.close at clean ⊢
  split
  · exact (h.endInner _ _).endInnermost _ _
  · rename_i stray
    rw [stray] at clean
    simp [Builder.report] at clean

theorem push (h : b.Legible) (plain : b.Plain) {tag : StartTag} {raw : Option TextNode}
    {next : Cursor} (start : StartLegible tag raw next) (content : tag.isClosed = false) :
    Legible { b with stack := ⟨tag, raw.toList.map .text⟩ :: b.stack } ∧
      Ready { b with stack := ⟨tag, raw.toList.map .text⟩ :: b.stack } next := by
  have first : OpenElement.Legible ⟨tag, raw.toList.map .text⟩ :=
    ⟨start.spelled, fun _ => ⟨raw, rfl, start.free⟩, legibleAll_raw raw⟩
  refine ⟨⟨h.roots, List.forall_mem_cons.mpr ⟨first, h.elements⟩, plain⟩, ?_⟩
  cases isRaw : isRawText tag.name with
  | true => exact Or.inr ⟨_, List.mem_cons_self, start.awaits content isRaw⟩
  | false => exact Or.inl (List.forall_mem_cons.mpr ⟨isRaw, plain⟩)

/-- What a token adds can be written again, unless a problem is reported. -/
theorem step (h : b.Legible) {start : Cursor} (ready : b.Ready start) (more : start.rest ≠ [])
    (clean : (b.step (readToken start)).problems = []) :
    (b.step (readToken start)).Legible ∧
      (b.step (readToken start)).Ready (readToken start).next := by
  rcases ready with plain | ⟨e, mem, ended | starts⟩
  · cases read : readToken start with
    | mk token problems next =>
      rw [read] at clean
      have h := h.report problems
      have plain : (b.report problems).Plain := plain
      cases token with
      | text t => exact (h.add plain (n := .text t) trivial).imp_right Or.inl
      | comment t => exact (h.add plain (n := .comment t) trivial).imp_right Or.inl
      | instruction i => exact (h.add plain (n := .instruction i) trivial).imp_right Or.inl
      | declaration s => exact ⟨h, Or.inl plain⟩
      | close name s => exact (h.close name s clean).imp_right Or.inl
      | start tag raw =>
        have legible := startLegible_of_readToken read
        simp only [Builder.step]
        split
        · refine (h.add plain (n := .element tag tag.span none []) ?_).imp_right Or.inl
          exact ⟨legible.spelled, fun _ => ⟨none, rfl, by simp⟩, trivial⟩
        · rename_i content
          exact h.push plain legible (by simpa using content)
  · exact absurd ended more
  · -- raw text is open, so the token is its end tag
    rw [readToken_of_startsEndTag (h.elements e mem).tag.letter starts] at clean ⊢
    exact ((h.report _).close _ _ clean).imp_right Or.inl

end Legible

end Builder

/-- In a text without problems every element is closed before the end. -/
theorem nodes_of_clean {source : String} (clean : (parse source).problems = []) :
    let b := (lexemes source).foldl Builder.step Builder.empty
    b.problems = [] ∧ (parse source).nodes = b.roots := by
  intro b
  have eq : parse source =
      ⟨(b.finish source.utf8ByteSize).roots, (b.finish source.utf8ByteSize).problems⟩ := rfl
  rw [eq, Builder.finish, Builder.problems_endInner] at clean
  obtain ⟨none, closed⟩ := List.append_eq_nil_iff.mp clean
  refine ⟨none, ?_⟩
  rw [eq, Builder.finish, List.map_eq_nil_iff.mp closed]
  rfl

theorem legible_parse {source : String} (clean : (parse source).problems = []) :
    LegibleAll (parse source).nodes := by
  obtain ⟨none, nodes⟩ := nodes_of_clean clean
  have start : Builder.empty.Legible := by
    refine ⟨trivial, ?_, ?_⟩
    · simp [Builder.empty]
    · simp [Builder.empty]
  have ready : Builder.empty.Ready ⟨0, source.toList⟩ := by
    refine Or.inl ?_
    simp [Builder.Plain, Builder.empty]
  obtain ⟨d, legible, -⟩ := Builder.foldl_of_clean (I := fun b c => b.Legible ∧ b.Ready c) _
    ⟨start, ready⟩ (fun b d mem kept => kept.1.step kept.2 (rest_ne_nil_of_mem mem)) none
  rw [nodes]
  exact legible.roots

end DirectiveTemplates.Markup
