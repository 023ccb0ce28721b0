import DirectiveTemplates.Proofs.Markup.Extending
import DirectiveTemplates.Proofs.Markup.Outline
import DirectiveTemplates.Proofs.Markup.Shifting

/-!
Text put into markup. A text that leaves nothing open adds its tags to those of whatever comes
behind it, so text without brackets that is put between such texts changes no tag.
-/
namespace DirectiveTemplates.Markup

open Text

def marks (cs : List Char) : List Mark := marksOf (lexemes (String.ofList cs))

theorem Token.mark?_shift (t : Token) (k : Nat) : (t.shift k).mark? = t.mark? := by
  cases t with
  | start tag raw =>
    have entries : (tag.shift k).entries = tag.entries := by
      simp [StartTag.entries, StartTag.shift, Attribute.shift]
    rw [shift, mark?, mark?, entries]
    rfl
  | text t | comment t | instruction i | declaration s | close name s => rfl

theorem Lexes.marks_eq {source : List Char} {c d : Cursor} {ls : List Lexeme} (h : Lexes c ls d)
    (stands : c.At source) (ended : d.rest = []) : marks c.rest = marksOf ls := by
  have moved : (Cursor.shift ⟨0, c.rest⟩ c.offset) = c := by simp [Cursor.shift]
  have read := h.lexemesFrom_eq stands ended (Nat.le_refl _)
  rw [← moved, lexemesFrom_shift, moved] at read
  rw [marks, lexemes, String.toList_ofList, ← read, marksOf, marksOf, List.filterMap_map]
  congr 1
  funext l
  exact (l.token.mark?_shift c.offset).symm

theorem marks_nil : marks [] = [] := rfl

theorem marks_of_readToken {source : List Char} {c : Cursor} (stands : c.At source)
    (more : c.rest ≠ []) :
    marks c.rest = (readToken c).token.mark?.toList ++ marks (readToken c).next.rest := by
  obtain ⟨⟨piece, -, reads⟩, -⟩ := readToken_spec stands more
  have next := stands.next reads
  obtain ⟨d, lexes, last⟩ := lexes_lexemesFrom next (Nat.le_refl _)
  have ended : d.rest = [] := congrArg Cursor.rest last
  rw [(Lexes.cons more lexes).marks_eq stands ended, lexes.marks_eq next ended, marksOf_cons]

/-! Plain text. -/

/-- Text that opens a tag when a letter comes next. -/
def OpenEnded (cs : List Char) : Prop := ['<'] <:+ cs ∨ ['<', '/'] <:+ cs

/-- A pattern goes over the end of a text only when the text ends with a part of it. -/
theorem not_infix_append {pattern a b : List Char} (free : ¬ pattern <:+: a)
    (free' : ¬ pattern <:+: b)
    (border : ∀ p q, pattern = p ++ q → p ≠ [] → q ≠ [] → ¬ p <:+ a) :
    ¬ pattern <:+: a ++ b := by
  induction a with
  | nil => exact free'
  | cons c cs ih =>
    intro h
    rcases List.infix_cons_iff.mp h with starts | later
    · rcases List.prefix_or_prefix_of_prefix starts (List.prefix_append (c :: cs) b) with
        inside | ⟨q, rfl⟩
      · exact free inside.isInfix
      · cases q with
        | nil =>
          rw [List.append_nil] at free
          exact free List.infix_rfl
        | cons d ds =>
          exact border (c :: cs) (d :: ds) rfl (by simp) (by simp) List.suffix_rfl
    · have suffix : cs <:+ c :: cs := List.suffix_cons c cs
      refine ih (fun inside => free (inside.trans suffix.isInfix)) ?_ later
      intro p q eq ne ne' ends
      exact border p q eq ne ne' (ends.trans suffix)

theorem IsPlain.append {a b : List Char} (plain : IsPlain a) (plain' : IsPlain b)
    (ended : ¬ OpenEnded a) : IsPlain (a ++ b) := by
  have pair (c : Char) (p q : List Char) (eq : ['<', c] = p ++ q) (ne : p ≠ []) (ne' : q ≠ []) :
      ¬ p <:+ a := by
    match p, ne with
    | [d], _ =>
      rw [← (List.cons.inj eq).1]
      exact fun ends => ended (Or.inl ends)
    | d :: e :: es, _ => simp_all
  have triple (c : Char) (p q : List Char) (eq : ['<', '/', c] = p ++ q) (ne : p ≠ [])
      (ne' : q ≠ []) : ¬ p <:+ a := by
    match p, ne with
    | [d], _ =>
      rw [← (List.cons.inj eq).1]
      exact fun ends => ended (Or.inl ends)
    | [d, e], _ =>
      obtain ⟨first, rest⟩ := List.cons.inj eq
      rw [← first, ← (List.cons.inj rest).1]
      exact fun ends => ended (Or.inr ends)
    | d :: e :: f :: fs, _ => simp_all
  refine ⟨not_infix_append plain.declaration plain'.declaration (pair '!'),
    not_infix_append plain.instruction plain'.instruction (pair '?'), ?_, ?_⟩
  · intro c start
    exact not_infix_append (plain.openTag c start) (plain'.openTag c start) (pair c)
  · intro c start
    exact not_infix_append (plain.closeTag c start) (plain'.closeTag c start) (triple c)

theorem isPlain_of_not_mem {cs : List Char} (free : '<' ∉ cs) : IsPlain cs := by
  have no (rest : List Char) : ¬ '<' :: rest <:+: cs :=
    fun h => free (h.subset List.mem_cons_self)
  exact ⟨no _, no _, fun _ _ => no _, fun _ _ => no _⟩

theorem not_openEnded_of_not_mem {cs : List Char} (free : '<' ∉ cs) : ¬ OpenEnded cs := by
  rintro (ends | ends)
  · exact free (ends.subset List.mem_cons_self)
  · exact free (ends.subset List.mem_cons_self)

theorem marks_text {value after : List Char} (plain : IsPlain value) (parted : Parted after) :
    marks (value ++ after) = marks after := by
  by_cases ne : value = []
  · rw [ne, List.nil_append]
  · let c : Cursor := ⟨0, value ++ after⟩
    have stands : c.At (value ++ after) := ⟨[], rfl, rfl⟩
    have read : readToken c = ⟨.text _, [], c.after value after⟩ :=
      readToken_text ne plain parted rfl
    have more : c.rest ≠ [] := List.append_ne_nil_of_left_ne_nil ne after
    rw [show value ++ after = c.rest from rfl, marks_of_readToken stands more, read]
    rfl

/-- Plain text goes on in the text behind it, and neither has a tag. -/
theorem marks_plain_append {value : List Char} (plain : IsPlain value) (ended : ¬ OpenEnded value)
    (more : List Char) : marks (value ++ more) = marks more := by
  have split := breakAt_append startsConstruct more
  have behind := isPlain_breakAt more
  have parted : Parted (breakAt startsConstruct more).2 := stop_of_breakAt _ _
  rw [← split, ← List.append_assoc, marks_text (plain.append behind ended) parted,
    marks_text behind parted]

theorem marks_append_of_not_mem {value : List Char} (free : '<' ∉ value) (more : List Char) :
    marks (value ++ more) = marks more :=
  marks_plain_append (isPlain_of_not_mem free) (not_openEnded_of_not_mem free) more

/-! Texts that leave nothing open. -/

/-- Whatever comes behind the text is read as if it stood alone. -/
def Standalone (cs : List Char) : Prop := ∀ more, marks (cs ++ more) = marks cs ++ marks more

namespace Standalone

variable {a b : List Char}

theorem append (h : Standalone a) (h' : Standalone b) : Standalone (a ++ b) := by
  intro more
  rw [List.append_assoc, h, h', h, List.append_assoc]

theorem nil : Standalone [] := fun _ => rfl

theorem of_not_mem (free : '<' ∉ a) : Standalone a := by
  intro more
  have alone := marks_append_of_not_mem free []
  rw [List.append_nil, marks_nil] at alone
  rw [marks_append_of_not_mem free, alone, List.nil_append]

/-- A token and what stands behind it are standalone when the latter is. -/
theorem of_readToken {token : Token} {taken : List Char} (ne : a ≠ [])
    (read : ∀ more, readToken ⟨0, a ++ more⟩ =
      ⟨token, [], Cursor.after ⟨0, a ++ more⟩ taken (b ++ more)⟩)
    (standalone : Standalone b) : Standalone a := by
  have all (more : List Char) : marks (a ++ more) = token.mark?.toList ++ marks (b ++ more) := by
    have stands : Cursor.At (a ++ more) ⟨0, a ++ more⟩ := ⟨[], rfl, rfl⟩
    have first := marks_of_readToken stands (List.append_ne_nil_of_left_ne_nil ne more)
    rw [read] at first
    exact first
  have alone := all []
  rw [List.append_nil, List.append_nil] at alone
  intro more
  rw [all, standalone, alone, List.append_assoc]

theorem startTag {t : WrittenTag} (valid : t.WellFormed) (slash : Bool)
    (plain : slash = true ∨ isVoid (String.ofList t.name) = true ∨
      isRawText (String.ofList t.name) = false) : Standalone (t.write slash) := by
  have read (more : List Char) : readToken ⟨0, t.write slash ++ more⟩ =
      ⟨.start (t.meaning 0 slash) none, [], Cursor.after ⟨0, _⟩ (t.write slash) more⟩ :=
    readToken_start valid plain rfl
  exact of_readToken (by simp [WrittenTag.write]) read nil

theorem endTag {name : List Char} {e : WrittenEnd}
    (letter : ∃ c cs, name = c :: cs ∧ isNameStart c = true)
    (inside : ∀ c ∈ name, isNameEnd c = false) (valid : e.WellFormed name) :
    Standalone e.write := by
  have read (more : List Char) : readToken ⟨0, e.write ++ more⟩ =
      ⟨.close (String.ofList e.name) ⟨0, 0 + byteLength e.write⟩, [],
        Cursor.after ⟨0, _⟩ e.write more⟩ :=
    readToken_end letter inside valid rfl
  exact of_readToken (by simp [WrittenEnd.write]) read nil

theorem raw {t : WrittenTag} {content : List Char} {e : WrittenEnd} (valid : t.WellFormed)
    (isRaw : isRawText (String.ofList t.name) = true)
    (free : ¬ '<' :: '/' :: lowerAscii t.name <:+: lowerAscii content)
    (ended : e.WellFormed t.name) : Standalone (t.write false ++ content ++ e.write) := by
  have read (more : List Char) : readToken ⟨0, t.write false ++ content ++ e.write ++ more⟩ =
      ⟨.start (t.meaning 0 false) (Written.rawNode (0 + byteLength (t.write false)) content), [],
        Cursor.after ⟨0, _⟩ (t.write false ++ content) (e.write ++ more)⟩ :=
    readToken_raw valid isRaw free ended (by simp)
  exact of_readToken (by simp [WrittenTag.write]) read (endTag valid.letter valid.name ended)

end Standalone

/-! Reading a text that leaves nothing open. -/

/-- A text that leaves nothing open: its last token has its end there, no raw text goes on, and no
letter behind it makes a tag of its last characters. -/
structure Shut (cs : List Char) : Prop where
  text : ¬ OpenEnded cs
  token : ∀ l ∈ (lexemes (String.ofList cs)).getLast?,
    l.token.Ended cs ∧ ∀ p ∈ l.problems, p.span.stop ≠ byteLength cs

theorem Token.Ended.suffix {cs rest : List Char} {t : Token} (h : t.Ended cs)
    (suffix : rest <:+ cs) : t.Ended rest := by
  cases t with
  | declaration s | close name s => exact Closed.suffix h suffix
  | start tag raw => exact h
  | text t | comment t | instruction i => trivial

theorem Cursor.At.suffix {source : List Char} {c : Cursor} (stands : c.At source) :
    c.rest <:+ source := by
  obtain ⟨before, eq, -⟩ := stands
  exact ⟨before, eq.symm⟩

theorem Cursor.At.extend {source : List Char} {c : Cursor} (stands : c.At source)
    (more : List Char) : (c.extend more).At (source ++ more) := by
  obtain ⟨before, eq, offset⟩ := stands
  exact ⟨before, by rw [eq, rest_extend, List.append_assoc], offset⟩

theorem OpenEnded.of_suffix {cs rest : List Char} (h : OpenEnded rest) (suffix : rest <:+ cs) :
    OpenEnded cs :=
  h.imp (·.trans suffix) (·.trans suffix)

theorem isPlain_of_readText {c : Cursor} (construct : constructAt c.rest = .text)
    (ended : (readText c).next.rest = []) : IsPlain c.rest := by
  have plain := isPlain_breakAt c.rest
  have whole := breakAt_append startsConstruct c.rest
  have none : (breakAt startsConstruct c.rest).2 = [] := by
    rw [breakAt_of_text construct]
    exact ended
  rw [none, List.append_nil] at whole
  rwa [whole] at plain

/-- A text is read with what comes behind it to its end, and then what comes behind it. -/
theorem Lexes.marks_append {source : List Char} {c d : Cursor} {ls : List Lexeme}
    (h : Lexes c ls d) (stands : c.At source) (ended : d.rest = []) (text : ¬ OpenEnded source)
    (token : ∀ l ∈ ls.getLast?,
      l.token.Ended source ∧ ∀ p ∈ l.problems, p.span.stop ≠ byteLength source)
    (more : List Char) : marks (c.rest ++ more) = marksOf ls ++ marks more := by
  induction h with
  | nil c =>
    rw [ended]
    rfl
  | @cons c d ls ne lexes ih =>
    obtain ⟨⟨piece, -, reads⟩, -⟩ := readToken_spec stands ne
    have last (rest : (readToken c).next.rest = []) : ls = [] := by
      cases lexes with
      | nil => rfl
      | cons ne' _ => exact absurd rest ne'
    have later : marks ((readToken c).next.rest ++ more) = marksOf ls ++ marks more := by
      refine ih (stands.next reads) ended fun l mem => token l ?_
      rw [List.getLast?_cons, mem]
      rfl
    by_cases plain : constructAt c.rest = .text ∧ (readToken c).next.rest = []
    · obtain ⟨construct, rest⟩ := plain
      have read : readToken c = readText c := by rw [readToken, construct]
      have noMark : marksOf (readToken c :: ls) = [] := by
        rw [last rest, read]
        rfl
      rw [read] at rest
      rw [noMark, marks_plain_append (isPlain_of_readText construct rest) fun open' =>
        text (open'.of_suffix stands.suffix)]
      rfl
    · have own (rest : (readToken c).next.rest = []) := token (readToken c) (by rw [last rest]; rfl)
      have read := readToken_extend stands ne more (fun construct rest => plain ⟨construct, rest⟩)
        (fun rest => (own rest).1.suffix stands.suffix) (fun rest => (own rest).2)
      have first := marks_of_readToken (stands.extend more)
        (List.append_ne_nil_of_left_ne_nil ne more)
      rw [read] at first
      refine first.trans ?_
      show _ ++ marks ((readToken c).next.rest ++ more) = _
      rw [later, marksOf_cons, List.append_assoc]
      rfl

theorem Shut.standalone {cs : List Char} (shut : Shut cs) : Standalone cs := by
  have lexes := lexes_lexemes (String.ofList cs)
  rw [String.toList_ofList] at lexes
  have stands : Cursor.At cs ⟨0, cs⟩ := ⟨[], rfl, rfl⟩
  exact lexes.marks_append stands rfl shut.text shut.token

instance (cs : List Char) : Decidable (Closed cs) :=
  inferInstanceAs (Decidable (∀ c ∈ cs.getLast?, c = '>'))

instance (cs : List Char) (t : Token) : Decidable (t.Ended cs) :=
  match t with
  | .declaration _ | .close _ _ => inferInstanceAs (Decidable (Closed cs))
  | .start tag _ => inferInstanceAs (Decidable (tag.startsRaw = false))
  | .text _ | .comment _ | .instruction _ => isTrue trivial

instance (cs : List Char) : Decidable (OpenEnded cs) :=
  inferInstanceAs (Decidable (_ ∨ _))

instance (cs : List Char) : Decidable (Shut cs) :=
  decidable_of_iff (_ ∧ _) ⟨fun h => ⟨h.1, h.2⟩, fun h => ⟨h.text, h.token⟩⟩

end DirectiveTemplates.Markup
