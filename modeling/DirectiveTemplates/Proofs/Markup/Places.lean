import DirectiveTemplates.Proofs.Markup.Forest

/-!
The places of problems and of elements. All of them lie between characters of the text, also those
of constructs that the text breaks off.
-/
namespace DirectiveTemplates.Markup

open Text

mutual

def Node.preorder : Node → List Node
  | .element tag span stop children => .element tag span stop children :: preorderAll children
  | .text t => [.text t]
  | .comment t => [.comment t]
  | .instruction i => [.instruction i]

def preorderAll : List Node → List Node
  | [] => []
  | n :: ns => n.preorder ++ preorderAll ns

end

theorem preorderAll_append (ns rest : List Node) :
    preorderAll (ns ++ rest) = preorderAll ns ++ preorderAll rest := by
  induction ns with
  | nil => rfl
  | cons n ns ih => simp [preorderAll, ih]

/-! Problems of the readers. -/

/-- The problems of a reading are anchored between characters. -/
def Anchored (source : List Char) (ds : List Diagnostic) : Prop :=
  ∀ d ∈ ds, d.span.Aligned source

section readers

variable {source : List Char} {start : Cursor}

theorem Anchored.append {ds ds' : List Diagnostic} (h : Anchored source ds)
    (h' : Anchored source ds') : Anchored source (ds ++ ds') := by
  intro d mem
  rcases List.mem_append.mp mem with mem | mem
  · exact h d mem
  · exact h' d mem

theorem anchored_problemIf (missing : Bool) (problem : Problem) {span : Span}
    (aligned : span.Aligned source) : Anchored source (problemIf missing problem span) := by
  intro d mem
  unfold problemIf at mem
  split at mem
  · rw [List.mem_singleton.mp mem]
    exact aligned
  · cases mem

theorem Cursor.At.aligned {c d : Cursor} {piece : List Char} (h : c.At source)
    (reads : c.Reads piece d) : (c.spanFrom d).Aligned source :=
  (h.covers reads).aligned

theorem anchored_readValue (stands : start.At source) :
    Anchored source (readValue start).problems := by
  have none : Anchored source [] := fun d mem => by cases mem
  unfold readValue
  split
  · split
    · exact anchored_problemIf _ _
        (stands.aligned ((start.reads_skip 1).trans ((start.skip 1).reads_goUntil _)))
    · exact none
  · exact none

theorem anchored_readAttribute (stands : start.At source) :
    Anchored source (readAttribute start).problems := by
  have name : start.Reads start.name start.skipName := start.reads_goUntil _
  have space : start.skipName.Reads _ start.skipName.skipSpace := start.skipName.reads_goUntil _
  have sign := start.skipName.skipSpace.reads_skip 1
  have gap : (start.skipName.skipSpace.skip 1).Reads _
      (start.skipName.skipSpace.skip 1).skipSpace :=
    (start.skipName.skipSpace.skip 1).reads_goUntil _
  unfold readAttribute
  simp only
  split
  · exact anchored_readValue (stands.next (((name.trans space).trans sign).trans gap))
  · intro d mem
    cases mem

/-- The problems of a start tag are anchored in it, or from its opening on. -/
theorem anchored_readAttributes (stands : start.At source) (name : String) (steps : Nat)
    {c : Cursor} {taken : List Char} (before : start.Reads taken c) :
    Anchored source (readAttributes start name steps c).problems := by
  induction steps generalizing c taken with
  | zero =>
    intro d mem
    cases mem
  | succ steps ih =>
    have toHere := before.trans (c.reads_goUntil (startsOutside isMarkupSpace))
    have here : c.skipSpace.At source := stands.next toHere
    have single {p : Problem} {span : Span} (aligned : span.Aligned source) :
        Anchored source [p.diagnostic span] := anchored_problemIf true p aligned
    simp only [readAttributes]
    split
    · exact single (stands.aligned toHere)
    · intro d mem
      cases mem
    · intro d mem
      cases mem
    · exact single (stands.aligned toHere)
    · rename_i bad cs _ _ _ rest
      cases ended : isNameEnd bad with
      | true =>
        have next := c.skipSpace.reads_skip 1
        exact (single (here.aligned next)).append (ih (toHere.trans next))
      | false =>
        obtain ⟨piece, reads, -⟩ := readAttribute_spec here (name_ne_nil rest ended)
        exact (anchored_readAttribute here).append (ih (toHere.trans reads))

theorem anchored_readStartTag (stands : start.At source) :
    Anchored source (readStartTag start).problems := by
  have name : (start.skip 1).Reads _ (start.skip 1).skipName := (start.skip 1).reads_goUntil _
  have body := anchored_readAttributes stands (String.ofList (start.skip 1).name)
    ((start.skip 1).skipName.rest.length + 1) ((start.reads_skip 1).trans name)
  unfold readStartTag
  simp only
  split <;> exact body

theorem anchored_readToken (stands : start.At source) (more : start.rest ≠ []) :
    Anchored source (readToken start).problems := by
  obtain ⟨⟨piece, -, reads⟩, -⟩ := readToken_spec stands more
  have whole := stands.aligned reads
  have none : Anchored source [] := fun d mem => by cases mem
  unfold readToken at whole ⊢
  cases construct : constructAt start.rest with
  | comment | cdata | instruction =>
    rw [construct] at whole
    exact anchored_problemIf _ _ whole
  | declaration | closeTag | text => exact none
  | openTag => exact anchored_readStartTag stands

end readers

namespace Builder

def nodes (b : Builder) : List Node :=
  preorderAll b.roots ++ b.stack.flatMap fun e => preorderAll e.children

theorem mem_nodes_add {b : Builder} {n n' : Node} (mem : n' ∈ (b.add n).nodes) :
    n' ∈ b.nodes ∨ n' ∈ n.preorder := by
  obtain ⟨stack, roots, problems⟩ := b
  cases stack with
  | nil => simpa [nodes, add, preorderAll_append, preorderAll] using mem
  | cons e outer =>
    simp only [nodes, add, List.flatMap_cons, preorderAll_append, preorderAll, List.append_nil,
      List.mem_append] at mem ⊢
    rcases mem with root | (child | new) | other
    · exact .inl (.inl root)
    · exact .inl (.inr (.inl child))
    · exact .inr new
    · exact .inl (.inr (.inr other))

/-- Everything so far stands between characters. -/
structure Aligned (source : List Char) (b : Builder) : Prop where
  problems : Anchored source b.problems
  tags : ∀ e ∈ b.stack, e.tag.span.Aligned source
  ends : ∀ n ∈ b.nodes, Boundary source n.span.stop

namespace Aligned

variable {source : List Char} {b : Builder} {start : Cursor}

theorem report (h : Aligned source b) {ds : List Diagnostic} (anchored : Anchored source ds) :
    Aligned source (b.report ds) :=
  ⟨h.problems.append anchored, h.tags, h.ends⟩

theorem add (h : Aligned source b) {n : Node}
    (ends : ∀ n' ∈ n.preorder, Boundary source n'.span.stop) : Aligned source (b.add n) := by
  refine ⟨?_, ?_, ?_⟩
  · rw [problems_add]
    exact h.problems
  · obtain ⟨stack, roots, problems⟩ := b
    cases stack with
    | nil => exact h.tags
    | cons e outer =>
      intro e' mem
      rcases List.mem_cons.mp mem with rfl | mem
      · exact h.tags e List.mem_cons_self
      · exact h.tags e' (List.mem_cons_of_mem e mem)
  · intro n' mem
    rcases mem_nodes_add mem with old | new
    · exact h.ends n' old
    · exact ends n' new

theorem endInnermost (h : Aligned source b) {stop : Nat} (boundary : Boundary source stop)
    (endSpan : Option Span) : Aligned source (b.endInnermost stop endSpan) := by
  obtain ⟨stack, roots, problems⟩ := b
  cases stack with
  | nil => exact h
  | cons e outer =>
    have ends := h.ends
    simp only [nodes, List.flatMap_cons, List.mem_append] at ends
    have rest : Aligned source ⟨outer, roots, problems⟩ := by
      refine ⟨h.problems, fun e' mem => h.tags e' (List.mem_cons_of_mem e mem), ?_⟩
      intro n mem
      simp only [nodes, List.mem_append] at mem
      exact ends n (mem.imp_right .inr)
    apply rest.add
    intro n mem
    rw [Node.preorder] at mem
    rcases List.mem_cons.mp mem with rfl | child
    · exact boundary
    · exact ends n (.inr (.inl child))

theorem endInner (h : Aligned source b) {stop : Nat} (boundary : Boundary source stop) (n : Nat) :
    Aligned source (b.endInner stop n) := by
  induction n generalizing b with
  | zero => exact h
  | succ n ih => exact ih (h.endInnermost boundary none)

theorem close (h : Aligned source b) (name : String) {span : Span} (aligned : span.Aligned source) :
    Aligned source (b.close name span) := by
  unfold Builder.close
  split
  · exact (h.endInner aligned.start _).endInnermost aligned.stop _
  · exact h.report (anchored_problemIf true _ aligned)

theorem step (h : Aligned source b) (stands : start.At source) (more : start.rest ≠ []) :
    Aligned source (b.step (readToken start)) := by
  obtain ⟨⟨piece, -, reads⟩, fits⟩ := readToken_spec stands more
  have h := h.report (anchored_readToken stands more)
  have whole := stands.aligned reads
  unfold Builder.step
  simp only
  cases token : (readToken start).token with
  | text t | comment t | instruction t =>
    rw [token] at fits
    apply h.add
    intro n mem
    rw [Node.preorder, List.mem_singleton] at mem
    rw [mem, Node.span, fits.1]
    exact whole.stop
  | declaration s => exact h
  | close name s =>
    rw [token] at fits
    have eq : s = start.spanFrom (readToken start).next := fits
    rw [eq]
    exact h.close name whole
  | start tag raw =>
    rw [token] at fits
    obtain ⟨-, tagFits, ends⟩ := fits
    have aligned := tagFits.within.aligned
    simp only
    split
    · apply h.add
      intro n mem
      rw [Node.preorder, preorderAll, List.mem_singleton] at mem
      rw [mem]
      exact aligned.stop
    · refine ⟨h.problems, ?_, ?_⟩
      · intro e mem
        rcases List.mem_cons.mp mem with rfl | mem
        · exact aligned
        · exact h.tags e mem
      · intro n mem
        simp only [nodes, List.flatMap_cons, List.mem_append] at mem
        rcases mem with root | text | other
        · exact h.ends n (List.mem_append_left _ root)
        · cases raw with
          | none => cases text
          | some t =>
            have eq : n = .text t := List.mem_singleton.mp text
            rw [eq, Node.span, ends.1]
            exact whole.stop
        · exact h.ends n (List.mem_append_right _ other)

theorem lexemes (h : Aligned source b) (stands : start.At source) (count : Nat) :
    Aligned source ((lexemesFrom count start).foldl Builder.step b) := by
  induction count generalizing start b with
  | zero => exact h
  | succ count ih =>
    unfold lexemesFrom
    cases rest : start.rest with
    | nil => exact h
    | cons c cs =>
      have more : start.rest ≠ [] := by simp [rest]
      obtain ⟨⟨piece, -, reads⟩, -⟩ := readToken_spec stands more
      exact ih (h.step stands more) (stands.next reads)

theorem finish (h : Aligned source b) {stop : Nat} (boundary : Boundary source stop) :
    Aligned source (b.finish stop) := by
  apply endInner _ boundary
  apply h.report
  intro d mem
  obtain ⟨e, opened, rfl⟩ := List.mem_map.mp mem
  exact h.tags e opened

end Aligned

end Builder

/-- The problems of a text are anchored between its characters, and its nodes end there. -/
theorem parse_aligned (source : String) :
    Anchored source.toList (parse source).problems ∧
      ∀ n ∈ preorderAll (parse source).nodes, Boundary source.toList n.span.stop := by
  let start : Cursor := ⟨0, source.toList⟩
  have stands : start.At source.toList := ⟨[], rfl, rfl⟩
  have empty : Builder.Aligned source.toList Builder.empty := by
    constructor <;> simp [Anchored, Builder.empty, Builder.nodes, preorderAll]
  have read := empty.lexemes stands source.toList.length
  have size : Boundary source.toList source.utf8ByteSize :=
    ⟨source.toList, [], by simp, utf8ByteSize_eq source⟩
  have done := read.finish size
  exact ⟨done.problems, fun n mem => done.ends n (List.mem_append_left _ mem)⟩

mutual

theorem nodeFits_of_mem_preorder {source : List Char} {rawStart : Option Nat} :
    (n : Node) → NodeFits source rawStart n →
      ∀ n' ∈ n.preorder, ∃ rawStart', NodeFits source rawStart' n'
  | .element _ _ _ children, fits, n', mem => by
    rw [Node.preorder] at mem
    rcases List.mem_cons.mp mem with rfl | inside
    · exact ⟨rawStart, fits⟩
    · exact nodeFits_of_mem_preorderAll children fits.2.2.2.2 n' inside
  | .text _, fits, n', mem | .comment _, fits, n', mem | .instruction _, fits, n', mem => by
    rw [Node.preorder] at mem
    rw [List.mem_singleton.mp mem]
    exact ⟨rawStart, fits⟩

theorem nodeFits_of_mem_preorderAll {source : List Char} {rawStart : Option Nat} {lo hi : Nat} :
    (ns : List Node) → NodesFit source rawStart lo hi ns →
      ∀ n ∈ preorderAll ns, ∃ rawStart', NodeFits source rawStart' n
  | [], _, n, mem => by cases mem
  | n' :: ns, fits, n, mem => by
    rcases List.mem_append.mp mem with inside | later
    · exact nodeFits_of_mem_preorder n' fits.1.1 n inside
    · exact nodeFits_of_mem_preorderAll ns fits.2 n later

end

theorem parse_fits {source : String} {n : Node} (mem : n ∈ preorderAll (parse source).nodes) :
    ∃ rawStart, NodeFits source.toList rawStart n :=
  nodeFits_of_mem_preorderAll _ (parse_tiles source).nodes n mem

theorem element_aligned {source : String} {tag : StartTag} {span : Span} {stop : Option Span}
    {children : List Node}
    (mem : .element tag span stop children ∈ preorderAll (parse source).nodes) :
    span.Aligned source.toList := by
  obtain ⟨_, tagFits, start, le, ends, -⟩ := parse_fits mem
  have tagged := tagFits.within.aligned
  refine ⟨?_, start ▸ tagged.start, (parse_aligned source).2 _ mem⟩
  have inner : innerStop span stop ≤ span.stop := by
    cases stop with
    | none => exact Nat.le_refl _
    | some s =>
      obtain ⟨lt, eq⟩ := ends s rfl
      rw [← eq]
      exact Nat.le_of_lt lt
  rw [start]
  exact Nat.le_trans tagged.le (Nat.le_trans le inner)

theorem AttributesFit.of_mem {source : List Char} {lo hi : Nat} {as : List Attribute}
    {a : Attribute} (h : AttributesFit source lo as hi) (mem : a ∈ as) :
    AttributeFits source a := by
  induction as generalizing lo with
  | nil => cases mem
  | cons a' as ih =>
    rcases List.mem_cons.mp mem with rfl | later
    · exact h.2.1
    · exact ih h.2.2 later

namespace AttributeFits

variable {source : List Char} {a : Attribute}

theorem valueOrNameSpan (h : AttributeFits source a) : a.valueOrNameSpan.Aligned source := by
  unfold Attribute.valueOrNameSpan
  cases written : a.valueSpan with
  | none => exact h.name.aligned
  | some s => exact (h.value s written).1.aligned

/-- What stands in the value of an attribute stands behind its value offset in the text. -/
theorem shift (h : AttributeFits source a) {s : Span} {piece : List Char}
    (inside : s.Covers a.value.toList piece) : (s.shift a.valueOffset).Covers source piece := by
  obtain ⟨before, after, eq, rfl⟩ := inside
  unfold Attribute.valueOffset Span.shift
  cases written : a.valueSpan with
  | some s =>
    have covers := (h.value s written).1
    rw [eq, List.append_assoc] at covers
    have sub := covers.sub
    simp only [Option.map_some, Option.getD_some]
    rwa [Nat.add_comm s.start, Nat.add_right_comm] at sub
  | none =>
    rw [h.no_value written] at eq
    obtain ⟨both, rfl⟩ := List.append_eq_nil_iff.mp eq.symm
    obtain ⟨rfl, rfl⟩ := List.append_eq_nil_iff.mp both
    obtain ⟨before, after, text, span⟩ := h.name
    refine ⟨before ++ a.name.toList, after, by simp [text], ?_⟩
    rw [span]
    simp

end AttributeFits

end DirectiveTemplates.Markup
