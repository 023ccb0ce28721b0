import DirectiveTemplates.Proofs.Markup.Extending
import DirectiveTemplates.Proofs.Markup.Legible
import DirectiveTemplates.Proofs.Markup.Shifting

/-!
Markup written behind markup. A text without problems that ends with `>` leaves nothing open, so
what stands behind it is read as if it stood alone, further back.
-/
namespace DirectiveTemplates.Markup

open Text

namespace Builder

theorem problems_of_step (b : Builder) (l : Lexeme) :
    b.problems ++ l.problems <+: (b.step l).problems := by
  have split : b.step l = (b.report l.problems).step ⟨l.token, [], l.next⟩ := by
    simp [step, report]
  rw [split]
  exact problems_step (b.report l.problems) ⟨l.token, [], l.next⟩

/-- Where the text ended no element was open, nothing was reported, and the last root is no text
that goes on to the end. -/
structure Complete (b : Builder) (size : Nat) : Prop where
  problems : b.problems = []
  stack : b.stack = []
  apart : ∀ t, b.roots.getLast? = some (.text t) → t.span.stop ≠ size

/-- At the end of such a text no token is left that goes on behind it. -/
theorem Complete.ended {source : List Char} {b : Builder} {c : Cursor} (stands : c.At source)
    (ne : c.rest ≠ []) (closed : Closed c.rest)
    (complete : (b.step (readToken c)).Complete (byteLength source))
    (rest : (readToken c).next.rest = []) :
    constructAt c.rest ≠ .text ∧ (readToken c).token.Ended c.rest := by
  obtain ⟨⟨piece, -, reads⟩, fits⟩ := readToken_spec stands ne
  have last := (stands.next reads).offset_of_rest rest
  obtain ⟨problems, stack, apart⟩ := complete
  unfold step at stack apart
  have noText (other : ∀ t, (readToken c).token ≠ .text t) : constructAt c.rest ≠ .text := by
    intro construct
    rw [readToken, construct] at other
    exact other _ rfl
  cases token : (readToken c).token with
  | comment t | instruction i => exact ⟨noText (by simp [token]), trivial⟩
  | declaration s | close name s => exact ⟨noText (by simp [token]), closed⟩
  | text t =>
    rw [token] at stack apart fits
    exfalso
    refine apart t ?_ (by rw [fits.1, ← last]; rfl)
    have height := length_stack_add (b.report (readToken c).problems) (.text t)
    rw [stack] at height
    have none := List.eq_nil_of_length_eq_zero height.symm
    simp [add, none]
  | start tag raw =>
    rw [token] at stack
    refine ⟨noText (by simp [token]), ?_⟩
    cases closed : tag.isClosed with
    | true => simp [Token.Ended, StartTag.startsRaw, closed]
    | false => simp [closed] at stack

end Builder

/-- The tokens of such a text are its tokens when more stands behind it. -/
theorem Lexes.extend {source : List Char} {c d : Cursor} {ls : List Lexeme} (h : Lexes c ls d)
    (stands : c.At source) (closed : Closed c.rest) {b : Builder}
    (complete : (ls.foldl Builder.step b).Complete (byteLength source)) (more : List Char) :
    Lexes (c.extend more) (ls.map (·.extend more)) (d.extend more) := by
  induction h generalizing b with
  | nil c => exact .nil _
  | @cons c d ls ne lexes ih =>
    obtain ⟨⟨piece, -, reads⟩, -⟩ := readToken_spec stands ne
    have clean : (readToken c).problems = [] := by
      have all := (b.problems_of_step (readToken c)).trans (Builder.problems_foldl _ ls)
      rw [List.foldl_cons] at complete
      rw [complete.problems, List.prefix_nil] at all
      exact (List.append_eq_nil_iff.mp all).2
    have ended (rest : (readToken c).next.rest = []) :
        constructAt c.rest ≠ .text ∧ (readToken c).token.Ended c.rest := by
      cases lexes with
      | nil => exact complete.ended stands ne closed rest
      | cons ne' _ => exact absurd rest ne'
    have read := readToken_extend stands ne more (fun text rest => (ended rest).1 text)
      (fun rest => (ended rest).2) (by simp [EndsInside, clean])
    have later := ih (stands.next reads) (reads.closed closed) complete
    have ne' : (c.extend more).rest ≠ [] := List.append_ne_nil_of_left_ne_nil ne more
    have next : (readToken c).next.extend more = (readToken (c.extend more)).next := by
      rw [read]
      rfl
    rw [next] at later
    have here := Lexes.cons ne' later
    rw [read] at here
    exact here

theorem Builder.foldl_extend (b : Builder) (ls : List Lexeme) (more : List Char) :
    (ls.map (·.extend more)).foldl step b = ls.foldl step b := by
  rw [List.foldl_map]
  rfl

/-- The tokens of two texts, when the first one leaves nothing open. -/
theorem lexemes_append {s t : String} (closed : Closed s.toList)
    (complete : ((lexemes s).foldl Builder.step Builder.empty).Complete s.utf8ByteSize) :
    lexemes (s ++ t) =
      (lexemes s).map (·.extend t.toList) ++ (lexemes t).map (·.shift s.utf8ByteSize) := by
  let source := s.toList ++ t.toList
  let start : Cursor := ⟨0, s.toList⟩
  let middle : Cursor := ⟨0, t.toList⟩
  have size := utf8ByteSize_eq s
  have stands : start.At s.toList := ⟨[], rfl, rfl⟩
  have whole : (start.extend t.toList).At source := ⟨[], rfl, rfl⟩
  have half : (middle.shift s.utf8ByteSize).At source := by
    refine ⟨s.toList, rfl, ?_⟩
    rw [← size]
    exact Nat.zero_add _
  obtain ⟨d, first, rfl⟩ := lexes_lexemesFrom stands (Nat.le_refl _)
  rw [size] at complete
  have first := first.extend stands closed complete t.toList
  obtain ⟨e, second, rfl⟩ := lexes_lexemesFrom half (Nat.le_refl _)
  rw [lexemesFrom_shift] at second
  have meets : (⟨byteLength s.toList, []⟩ : Cursor).extend t.toList =
      middle.shift s.utf8ByteSize := by
    simp [Cursor.extend, Cursor.shift, middle, size]
  rw [meets] at first
  have tokens := (first.append second).lexemesFrom_eq whole rfl (Nat.le_refl _)
  rw [lexemes, String.toList_append]
  exact tokens

theorem stack_of_clean {source : String} (clean : (parse source).problems = []) :
    ((lexemes source).foldl Builder.step Builder.empty).stack = [] := by
  have reported : (parse source).problems = _ ++ _ := Builder.problems_endInner _ _ _
  rw [clean] at reported
  exact List.map_eq_nil_iff.mp (List.append_eq_nil_iff.mp reported.symm).2

/-- Markup is read piece by piece: behind a text without problems that ends with `>`, and not in a
text, other markup leaves the nodes and the problems that it leaves alone, further back. -/
theorem parse_append (s t : String) (clean : (parse s).problems = [])
    (ends : s.toList.getLast? = some '>')
    (apart : ∀ x, (parse s).nodes.getLast? = some (.text x) → x.span.stop ≠ s.utf8ByteSize) :
    parse (s ++ t) =
      ⟨(parse s).nodes ++ shiftAll s.utf8ByteSize (parse t).nodes,
        (parse t).problems.map (·.shift s.utf8ByteSize)⟩ := by
  let k := s.utf8ByteSize
  let b := (lexemes s).foldl Builder.step Builder.empty
  obtain ⟨none, nodes⟩ := nodes_of_clean clean
  have stack : b.stack = [] := stack_of_clean clean
  have closed : Closed s.toList := fun c last => (Option.some.inj (last.symm.trans ends))
  rw [nodes] at apart
  have tokens := lexemes_append (t := t) closed ⟨none, stack, apart⟩
  have left : b = (Builder.empty.shift k).behind (parse s).nodes := by
    rw [nodes]
    show b = ⟨[], b.roots ++ [], []⟩
    rw [List.append_nil, ← stack, ← none]
  have size : (s ++ t).utf8ByteSize = t.utf8ByteSize + k := by
    rw [String.utf8ByteSize_append, Nat.add_comm]
  have read : (lexemes (s ++ t)).foldl Builder.step Builder.empty =
      (((lexemes t).foldl Builder.step Builder.empty).shift k).behind (parse s).nodes := by
    rw [tokens, List.foldl_append, Builder.foldl_extend, ← Builder.foldl_shift,
      ← Builder.foldl_behind, ← left]
  rw [parse, read, size, Builder.finish_behind, Builder.finish_shift]
  rfl

/-- An open element behind a paragraph is reported where it stands. -/
theorem parse_append_paragraph :
    parse ("<p>a</p>" ++ "<b>x") =
      ⟨[.element ⟨"p", [], false, ⟨0, 3⟩, ⟨1, 2⟩⟩ ⟨0, 8⟩ (some ⟨4, 8⟩) [.text ⟨"a", ⟨3, 4⟩⟩],
        .element ⟨"b", [], false, ⟨8, 11⟩, ⟨9, 10⟩⟩ ⟨8, 12⟩ none [.text ⟨"x", ⟨11, 12⟩⟩]],
        [Problem.diagnostic (.unclosedElement "b") ⟨8, 11⟩]⟩ := by
  have first : parse "<p>a</p>" =
      ⟨[.element ⟨"p", [], false, ⟨0, 3⟩, ⟨1, 2⟩⟩ ⟨0, 8⟩ (some ⟨4, 8⟩)
        [.text ⟨"a", ⟨3, 4⟩⟩]], []⟩ :=
    rfl
  refine parse_append "<p>a</p>" "<b>x" (congrArg Forest.problems first) rfl ?_
  rw [first]
  intro x last
  cases last

end DirectiveTemplates.Markup
