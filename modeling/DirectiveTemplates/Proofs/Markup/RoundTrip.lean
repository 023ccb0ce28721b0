import DirectiveTemplates.Proofs.Markup.Forest
import DirectiveTemplates.Proofs.Markup.Leaves
import DirectiveTemplates.Proofs.Markup.Tags

/-!
Reading back a document. By induction on the document, its tokens add its meaning to any builder:
an element is pushed with its start tag, grows by the meaning of its children, and its end tag
finds it innermost.
-/
namespace DirectiveTemplates.Markup

open Text

inductive Lexes : Cursor → List Lexeme → Cursor → Prop
  | nil (c : Cursor) : Lexes c [] c
  | cons {c d : Cursor} {ls : List Lexeme} (more : c.rest ≠ [])
      (rest : Lexes (readToken c).next ls d) : Lexes c (readToken c :: ls) d

theorem Lexes.append {c d e : Cursor} {ls ls' : List Lexeme} (h : Lexes c ls d)
    (h' : Lexes d ls' e) : Lexes c (ls ++ ls') e := by
  induction h with
  | nil => exact h'
  | cons more _ ih => exact .cons more (ih h')

/-- Every token takes a character, so there are no more tokens than characters. -/
theorem Lexes.lexemesFrom_eq {source : List Char} {c d : Cursor} {ls : List Lexeme}
    (h : Lexes c ls d) (stands : c.At source) (ended : d.rest = []) {count : Nat}
    (enough : c.rest.length ≤ count) : lexemesFrom count c = ls := by
  induction h generalizing count with
  | nil c =>
    cases count with
    | zero => rfl
    | succ count => simp [lexemesFrom, ended]
  | @cons c d ls more rest ih =>
    obtain ⟨⟨piece, ne, reads⟩, -⟩ := readToken_spec stands more
    have shorter := congrArg List.length reads.1
    have taken := List.length_pos_iff.mpr ne
    rw [List.length_append] at shorter
    cases count with
    | zero => omega
    | succ count =>
      have later := ih (stands.next reads) ended (show _ ≤ count by omega)
      simp [lexemesFrom, more, later]

/-- Reading goes on to the end of the text. -/
theorem lexes_lexemesFrom {source : List Char} {c : Cursor} (stands : c.At source) {count : Nat}
    (enough : c.rest.length ≤ count) :
    ∃ d, Lexes c (lexemesFrom count c) d ∧ d = ⟨byteLength source, []⟩ := by
  induction count generalizing c with
  | zero =>
    have rest : c.rest = [] := List.eq_nil_of_length_eq_zero (Nat.le_zero.mp enough)
    exact ⟨c, .nil c, by rw [← rest, ← stands.offset_of_rest rest]⟩
  | succ count ih =>
    by_cases ended : c.rest = []
    · refine ⟨c, ?_, by rw [← ended, ← stands.offset_of_rest ended]⟩
      rw [lexemesFrom, ended]
      exact .nil c
    · obtain ⟨⟨piece, ne, reads⟩, -⟩ := readToken_spec stands ended
      have shorter := congrArg List.length reads.1
      have taken := List.length_pos_iff.mpr ne
      rw [List.length_append] at shorter
      obtain ⟨d, lexes, last⟩ := ih (stands.next reads) (by omega)
      refine ⟨d, ?_, last⟩
      have goesOn : lexemesFrom (count + 1) c =
          readToken c :: lexemesFrom count (readToken c).next := by
        simp [lexemesFrom, ended]
      rw [goesOn]
      exact .cons ended lexes

theorem lexes_lexemes (source : String) :
    Lexes ⟨0, source.toList⟩ (lexemes source) ⟨source.utf8ByteSize, []⟩ := by
  have stands : Cursor.At source.toList ⟨0, source.toList⟩ := ⟨[], rfl, rfl⟩
  obtain ⟨d, lexes, rfl⟩ := lexes_lexemesFrom stands (Nat.le_refl _)
  rw [utf8ByteSize_eq]
  exact lexes

/-- A token was read somewhere between two positions. -/
theorem Lexes.split {c d : Cursor} {before after : List Lexeme} {l : Lexeme}
    (h : Lexes c (before ++ l :: after) d) :
    ∃ e, Lexes c before e ∧ e.rest ≠ [] ∧ l = readToken e ∧ Lexes (readToken e).next after d := by
  induction before generalizing c with
  | nil =>
    cases h with
    | cons more rest => exact ⟨c, .nil c, more, rfl, rest⟩
  | cons first before ih =>
    cases h with
    | cons more rest =>
      obtain ⟨e, lexes, here⟩ := ih rest
      exact ⟨e, .cons more lexes, here⟩

/-- What every token keeps holds where the reading ends. -/
theorem Lexes.preserves {source : List Char} {I : Builder → Cursor → Prop} {c d : Cursor}
    {ls : List Lexeme} {b : Builder} (h : Lexes c ls d) (stands : c.At source) (start : I b c)
    (step : ∀ b e, e.At source → e.rest ≠ [] → I b e →
      I (b.step (readToken e)) (readToken e).next) :
    I (ls.foldl Builder.step b) d ∧ d.At source := by
  induction h generalizing b with
  | nil c => exact ⟨start, stands⟩
  | cons more _ ih =>
    obtain ⟨⟨piece, -, reads⟩, -⟩ := readToken_spec stands more
    exact ih (stands.next reads) (step b _ stands more start)

def Grows (c : Cursor) (b : Builder) (d : Cursor) (b' : Builder) : Prop :=
  ∃ ls, Lexes c ls d ∧ ls.foldl Builder.step b = b'

namespace Grows

variable {c d e : Cursor} {b b' b'' : Builder}

theorem refl (c : Cursor) (b : Builder) : Grows c b c b := ⟨[], .nil c, rfl⟩

theorem trans (h : Grows c b d b') (h' : Grows d b' e b'') : Grows c b e b'' := by
  obtain ⟨ls, lexes, rfl⟩ := h
  obtain ⟨ls', lexes', rfl⟩ := h'
  exact ⟨ls ++ ls', lexes.append lexes', List.foldl_append⟩

theorem token {piece after : List Char} {token : Token} {next : Cursor}
    (rest : c.rest = piece ++ after) (ne : piece ≠ []) (read : readToken c = ⟨token, [], next⟩)
    (b : Builder) : Grows c b next (b.step ⟨token, [], next⟩) := by
  have more : c.rest ≠ [] := by
    rw [rest]
    exact List.append_ne_nil_of_left_ne_nil ne after
  have lexes := Lexes.cons more (.nil (readToken c).next)
  rw [read] at lexes
  exact ⟨_, lexes, rfl⟩

end Grows

namespace Builder

/-! What a token does that was read without a problem. -/

section steps

variable (b : Builder) (next : Cursor)

theorem step_text (t : TextNode) : b.step ⟨.text t, [], next⟩ = b.add (.text t) := by
  simp [step, report]

theorem step_comment (t : TextNode) : b.step ⟨.comment t, [], next⟩ = b.add (.comment t) := by
  simp [step, report]

theorem step_instruction (i : Instruction) :
    b.step ⟨.instruction i, [], next⟩ = b.add (.instruction i) := by
  simp [step, report]

theorem step_closed {tag : StartTag} (closed : tag.isClosed = true) :
    b.step ⟨.start tag none, [], next⟩ = b.add (.element tag tag.span none []) := by
  simp [step, report, closed]

theorem step_open {tag : StartTag} (content : tag.isClosed = false) (raw : Option TextNode) :
    b.step ⟨.start tag raw, [], next⟩ =
      { b with stack := ⟨tag, raw.toList.map .text⟩ :: b.stack } := by
  simp [step, report, content]

theorem step_close (e : OpenElement) {name : String} (s : Span)
    (same : sameName name e.tag.name = true) :
    ({ b with stack := e :: b.stack } : Builder).step ⟨.close name s, [], next⟩ =
      b.add (.element e.tag ⟨e.tag.span.start, s.stop⟩ (some s) e.children) := by
  have found : (e :: b.stack).findIdx? (sameName name ·.tag.name) = some 0 := by
    simp [List.findIdx?_cons, same]
  simp only [step, report, List.append_nil, close, found]
  rfl

end steps

theorem foldl_add_open (b : Builder) (e : OpenElement) (outer : List OpenElement) (ns : List Node) :
    ns.foldl add { b with stack := e :: outer } =
      { b with stack := { e with children := e.children ++ ns } :: outer } := by
  induction ns generalizing e with
  | nil => simp
  | cons n ns ih =>
    rw [List.foldl_cons]
    have first : add { b with stack := e :: outer } n =
        { b with stack := { e with children := e.children ++ [n] } :: outer } := rfl
    rw [first, ih]
    simp

theorem foldl_add_roots (ns : List Node) (roots : List Node) (problems : List Diagnostic) :
    ns.foldl add ⟨[], roots, problems⟩ = ⟨[], roots ++ ns, problems⟩ := by
  induction ns generalizing roots with
  | nil => simp
  | cons n ns ih =>
    rw [List.foldl_cons]
    have first : add ⟨[], roots, problems⟩ n = ⟨[], roots ++ [n], problems⟩ := rfl
    rw [first, ih]
    simp

end Builder

/-! Where tags stand. -/

theorem startsConstruct_declaration (cs : List Char) :
    startsConstruct ('<' :: '!' :: cs) = true := by
  unfold startsConstruct constructAt
  split <;> grind

theorem constructAt_openTag {c : Char} (cs : List Char) (start : isNameStart c = true) :
    constructAt ('<' :: c :: cs) = .openTag := by
  have apart {d : Char} (other : isNameStart d = false) : c ≠ d := by
    rintro rfl
    rw [start] at other
    exact absurd other (by decide)
  have noBang := apart (d := '!') rfl
  have noQuery := apart (d := '?') rfl
  have noSlash := apart (d := '/') rfl
  unfold constructAt
  split <;> simp_all

/-- Text with what follows it, in which no construct starts, is plain. -/
theorem isPlain_of_suffixes {value : List Char} (after : List Char)
    (free : ∀ rest, rest <:+ value → rest ≠ [] → startsConstruct (rest ++ after) = false) :
    IsPlain value := by
  have none {pattern : List Char} (ne : pattern ≠ [])
      (starts : ∀ cs, startsConstruct (pattern ++ cs) = true) : ¬ pattern <:+: value := by
    rintro ⟨before, behind, whole⟩
    have suffix : pattern ++ behind <:+ value := ⟨before, by rw [← whole, List.append_assoc]⟩
    have never := free (pattern ++ behind) suffix (List.append_ne_nil_of_left_ne_nil ne behind)
    rw [List.append_assoc, starts] at never
    cases never
  refine ⟨none (by simp) startsConstruct_declaration, none (by simp) fun _ => rfl, ?_, ?_⟩
  · intro c start
    refine none (by simp) fun cs => ?_
    rw [startsConstruct, List.cons_append, List.singleton_append, constructAt_openTag cs start]
    rfl
  · intro c start
    refine none (by simp) fun cs => ?_
    simp [startsConstruct, constructAt, start]

theorem breakAt_of_text {c : Cursor} (construct : constructAt c.rest = .text) :
    breakAt startsConstruct c.rest = (c.rest.take 1 ++ (c.skip 1).textUntil startsConstruct,
      ((c.skip 1).goUntil startsConstruct).rest) := by
  have goesOn : ¬ startsConstruct c.rest = true := by simp [startsConstruct, construct]
  cases rest : c.rest with
  | nil => simp [breakAt, Cursor.textUntil, Cursor.goUntil, Cursor.skip, Cursor.after, rest]
  | cons d ds =>
    rw [rest] at goesOn
    have behind : (c.skip 1).rest = ds := by simp [Cursor.skip, Cursor.after, rest]
    rw [breakAt, if_neg goesOn, Cursor.textUntil, Cursor.goUntil, behind]
    rfl

theorem isPlain_breakAt (cs : List Char) : IsPlain (breakAt startsConstruct cs).1 :=
  isPlain_of_suffixes _ (not_stop_of_breakAt startsConstruct cs)

theorem constructAt_startTag {t : WrittenTag} (valid : t.WellFormed) (slash : Bool)
    (after : List Char) : constructAt (t.write slash ++ after) = .openTag := by
  obtain ⟨c, cs, name, start⟩ := valid.letter
  rw [WrittenTag.write, name]
  exact constructAt_openTag _ start

theorem constructAt_endTag {name : List Char} {e : WrittenEnd}
    (letter : ∃ c cs, name = c :: cs ∧ isNameStart c = true) (valid : e.WellFormed name)
    (after : List Char) : constructAt (e.write ++ after) = .closeTag := by
  obtain ⟨c, cs, name, start⟩ := letter_of_lowerAscii_eq letter valid.name
  rw [WrittenEnd.write, name]
  simp [constructAt, start]

theorem Written.startsConstruct_write {d : Written} (valid : d.WellFormed)
    (other : d.isText = false) (after : List Char) : startsConstruct (d.write ++ after) = true := by
  cases d with
  | text value => exact absurd other (by simp [isText])
  | comment value => rfl
  | instruction target before content behind => rfl
  | closed tag slash =>
    unfold WellFormed at valid
    rw [write, startsConstruct, constructAt_startTag valid.1]
    rfl
  | raw tag content stop =>
    unfold WellFormed at valid
    rw [write, startsConstruct, List.append_assoc, List.append_assoc, constructAt_startTag valid.1]
    rfl
  | element tag children stop =>
    unfold WellFormed at valid
    rw [write, startsConstruct, List.append_assoc, List.append_assoc, constructAt_startTag valid.1]
    rfl

/-! What tags do. -/

theorem isVoid_of_isRawText {name : String} (h : isRawText name = true) : isVoid name = false := by
  simp only [isRawText, rawTextNames, List.any_cons, List.any_nil, Bool.or_false, Bool.or_eq_true,
    sameName, beq_iff_eq] at h
  unfold isVoid sameName
  rcases h with eq | eq
  · rw [eq]
    rfl
  · rw [eq]
    rfl

section tags

variable {c : Cursor} {after : List Char} {t : WrittenTag}

theorem isClosed_meaning (t : WrittenTag) (o : Nat) (slash : Bool) :
    (t.meaning o slash).isClosed = (slash || isVoid (String.ofList t.name)) := rfl

theorem readToken_startTag {slash : Bool} (valid : t.WellFormed)
    (rest : c.rest = t.write slash ++ after) : readToken c = readStartTag c := by
  rw [readToken, rest, constructAt_startTag valid]

theorem readToken_start {slash : Bool} (valid : t.WellFormed)
    (plain : slash = true ∨ isVoid (String.ofList t.name) = true ∨
      isRawText (String.ofList t.name) = false)
    (rest : c.rest = t.write slash ++ after) :
    readToken c = ⟨.start (t.meaning c.offset slash) none, [], c.after (t.write slash) after⟩ := by
  rw [readToken_startTag valid rest, readStartTag_eq valid rest]
  rcases plain with slash | void | plain
  · simp [isClosed_meaning, slash]
  · simp [isClosed_meaning, void]
  · simp [plain]

theorem readToken_raw {text : List Char} {e : WrittenEnd} (valid : t.WellFormed)
    (raw : isRawText (String.ofList t.name) = true)
    (free : ¬ '<' :: '/' :: lowerAscii t.name <:+: lowerAscii text) (ended : e.WellFormed t.name)
    (rest : c.rest = t.write false ++ (text ++ (e.write ++ after))) :
    readToken c = ⟨.start (t.meaning c.offset false)
      (Written.rawNode (c.offset + byteLength (t.write false)) text), [],
      c.after (t.write false ++ text) (e.write ++ after)⟩ := by
  have isClosed : (t.meaning c.offset false).isClosed = false := isVoid_of_isRawText raw
  have content := readRaw_eq valid.name free ended
    (c.rest_after (t.write false) (text ++ (e.write ++ after)))
  rw [readToken_startTag valid rest, readStartTag_eq valid rest]
  simp [raw, isClosed, content, Cursor.after_after]

theorem readToken_end {name : List Char} {e : WrittenEnd}
    (letter : ∃ d cs, name = d :: cs ∧ isNameStart d = true)
    (inside : ∀ d ∈ name, isNameEnd d = false) (ended : e.WellFormed name)
    (rest : c.rest = e.write ++ after) :
    readToken c = ⟨.close (String.ofList e.name) ⟨c.offset, c.offset + byteLength e.write⟩, [],
      c.after e.write after⟩ := by
  rw [readToken, rest, constructAt_endTag letter ended]
  exact readEndTag_eq inside ended rest

theorem grows_closed {slash : Bool} (valid : t.WellFormed)
    (closed : slash = true ∨ isVoid (String.ofList t.name) = true)
    (rest : c.rest = t.write slash ++ after) (b : Builder) :
    Grows c b (c.after (t.write slash) after) (b.add (.element (t.meaning c.offset slash)
      ⟨c.offset, c.offset + byteLength (t.write slash)⟩ none [])) := by
  have isClosed : (t.meaning c.offset slash).isClosed = true := by
    rw [isClosed_meaning, Bool.or_eq_true]
    exact closed
  have read := readToken_start valid (closed.imp_right Or.inl) rest
  have grows := Grows.token rest (by simp [WrittenTag.write]) read b
  rw [Builder.step_closed b _ isClosed] at grows
  exact grows

theorem grows_open (valid : t.WellFormed) (content : isVoid (String.ofList t.name) = false)
    (plain : isRawText (String.ofList t.name) = false)
    (rest : c.rest = t.write false ++ after) (b : Builder) :
    Grows c b (c.after (t.write false) after)
      { b with stack := ⟨t.meaning c.offset false, []⟩ :: b.stack } := by
  have isClosed : (t.meaning c.offset false).isClosed = false := content
  have read := readToken_start valid (Or.inr (Or.inr plain)) rest
  have grows := Grows.token rest (by simp [WrittenTag.write]) read b
  rw [Builder.step_open b _ isClosed] at grows
  exact grows

theorem grows_raw {text : List Char} {e : WrittenEnd} (valid : t.WellFormed)
    (raw : isRawText (String.ofList t.name) = true)
    (free : ¬ '<' :: '/' :: lowerAscii t.name <:+: lowerAscii text) (ended : e.WellFormed t.name)
    (rest : c.rest = t.write false ++ (text ++ (e.write ++ after))) (b : Builder) :
    Grows c b (c.after (t.write false ++ text) (e.write ++ after))
      { b with stack := ⟨t.meaning c.offset false,
        (Written.rawNode (c.offset + byteLength (t.write false)) text).toList.map .text⟩ ::
          b.stack } := by
  have isClosed : (t.meaning c.offset false).isClosed = false := isVoid_of_isRawText raw
  have read := readToken_raw valid raw free ended rest
  have grows := Grows.token rest (by simp [WrittenTag.write]) read b
  rw [Builder.step_open b _ isClosed] at grows
  exact grows

theorem grows_end {e : WrittenEnd} (valid : t.WellFormed) (ended : e.WellFormed t.name)
    (rest : c.rest = e.write ++ after) (b : Builder) (tag : StartTag)
    (name : tag.name = String.ofList t.name) (ns : List Node) :
    let stop := c.offset + byteLength e.write
    Grows c { b with stack := ⟨tag, ns⟩ :: b.stack } (c.after e.write after)
      (b.add (.element tag ⟨tag.span.start, stop⟩ (some ⟨c.offset, stop⟩) ns)) := by
  intro stop
  have read := readToken_end valid.letter valid.name ended rest
  have same : sameName (String.ofList e.name) tag.name = true := by
    simp [sameName, name, ended.name]
  have grows := Grows.token rest (by simp [WrittenEnd.write]) read
    { b with stack := ⟨tag, ns⟩ :: b.stack }
  rw [Builder.step_close b _ ⟨tag, ns⟩ _ same] at grows
  exact grows

end tags

namespace Written

mutual

/-- The tokens of a document add its meaning. -/
theorem grows (d : Written) (valid : d.WellFormed) {c : Cursor} {after : List Char}
    (rest : c.rest = d.write ++ after) (parted : d.isText = true → Parted after) (b : Builder) :
    Grows c b (c.after d.write after) (b.add (d.meaning c.offset)) := by
  cases d with
  | text value =>
    unfold WellFormed at valid
    have grows := Grows.token rest valid.1 (readToken_text valid.1 valid.2 (parted rfl) rest) b
    rw [Builder.step_text] at grows
    exact grows
  | comment value =>
    unfold WellFormed at valid
    have grows := Grows.token rest (by simp [write]) (readToken_comment valid rest) b
    rw [Builder.step_comment] at grows
    exact grows
  | instruction target before content behind =>
    unfold WellFormed at valid
    have grows := Grows.token rest (by simp [write]) (readToken_instruction valid rest) b
    rw [Builder.step_instruction] at grows
    exact grows
  | closed tag slash =>
    unfold WellFormed at valid
    exact grows_closed valid.1 valid.2 rest b
  | raw tag content stop =>
    unfold WellFormed at valid
    obtain ⟨start, isRaw, free, ended⟩ := valid
    have rest : c.rest = tag.write false ++ (content ++ (stop.write ++ after)) := by
      rw [rest]
      simp [write]
    have first := grows_raw start isRaw free ended rest b
    have last := grows_end start ended
      (Cursor.rest_after c (tag.write false ++ content) (stop.write ++ after)) b
      (tag.meaning c.offset false) rfl
      ((rawNode (c.offset + byteLength (tag.write false)) content).toList.map .text)
    have both := first.trans last
    simpa [meaning, write, Cursor.after_after, Nat.add_assoc] using both
  | element tag children stop =>
    unfold WellFormed at valid
    obtain ⟨start, content, plain, inner, ended⟩ := valid
    have rest : c.rest = tag.write false ++ (writeAll children ++ (stop.write ++ after)) := by
      rw [rest]
      simp [write]
    have opened := grows_open start content plain rest b
    have behind : Parted (stop.write ++ after) := by
      right
      rw [startsConstruct, constructAt_endTag start.letter ended]
      rfl
    have within := growsAll children inner
      (Cursor.rest_after c (tag.write false) (writeAll children ++ (stop.write ++ after))) behind
      { b with stack := ⟨tag.meaning c.offset false, []⟩ :: b.stack }
    rw [Builder.foldl_add_open, Cursor.after_after] at within
    have last := grows_end start ended
      (Cursor.rest_after c (tag.write false ++ writeAll children) (stop.write ++ after)) b
      (tag.meaning c.offset false) rfl
      (meaningAll (c.offset + byteLength (tag.write false)) children)
    have all := (opened.trans within).trans last
    simpa [meaning, write, Cursor.after_after, Nat.add_assoc] using all

theorem growsAll (ds : List Written) (valid : AllWellFormed ds) {c : Cursor} {after : List Char}
    (rest : c.rest = writeAll ds ++ after) (parted : Parted after) (b : Builder) :
    Grows c b (c.after (writeAll ds) after) ((meaningAll c.offset ds).foldl Builder.add b) := by
  cases ds with
  | nil =>
    have here : c.after [] after = c := by
      rw [← (show c.rest = after from rest)]
      rfl
    rw [writeAll, here]
    exact Grows.refl c b
  | cons d ds =>
    unfold AllWellFormed at valid
    obtain ⟨first, apart, others⟩ := valid
    have rest : c.rest = d.write ++ (writeAll ds ++ after) := by
      rw [rest]
      simp [writeAll]
    have between : d.isText = true → Parted (writeAll ds ++ after) := by
      intro isText
      cases ds with
      | nil => exact parted
      | cons d' ds =>
        unfold AllWellFormed at others
        rw [writeAll, List.append_assoc]
        exact Or.inr (startsConstruct_write others.1 (apart isText) _)
    have here := grows d first rest between b
    have later := growsAll ds others (Cursor.rest_after c d.write (writeAll ds ++ after)) parted
      (b.add (d.meaning c.offset))
    have both := here.trans later
    simpa [meaningAll, writeAll, Cursor.after_after] using both

end

end Written

/-- Every well-formed document is read back: nothing is reported, and the forest is what the
document means. -/
theorem parse_write (ds : List Written) (valid : Written.AllWellFormed ds) :
    parse (String.ofList (Written.writeAll ds)) = ⟨Written.meaningAll 0 ds, []⟩ := by
  let cs := Written.writeAll ds
  have stands : Cursor.At cs ⟨0, cs⟩ := ⟨[], rfl, rfl⟩
  obtain ⟨ls, lexes, grows⟩ := Written.growsAll ds valid (c := ⟨0, cs⟩) (List.append_nil cs).symm
    (Or.inl rfl) Builder.empty
  have tokens : lexemes (String.ofList cs) = ls := by
    rw [lexemes, String.toList_ofList]
    exact lexes.lexemesFrom_eq stands rfl (Nat.le_refl _)
  rw [parse, tokens, grows, Builder.empty, Builder.foldl_add_roots]
  simp [Builder.finish, Builder.report, Builder.endInner]

/-- A paragraph whose end tag has another case, with a void element behind text that ends in `<`. -/
def paragraph : List Written :=
  [.element
    ⟨['p'], [⟨[' '], ['i', 'd'], some ⟨[' '], [], '"', ['x']⟩⟩], []⟩
    [.text ['a', '<'], .closed ⟨['b', 'r'], [], []⟩ false]
    ⟨['P'], [' ']⟩]

theorem allWellFormed_paragraph : Written.AllWellFormed paragraph := by
  have value : WrittenValue.WellFormed ⟨[' '], [], '"', ['x']⟩ :=
    ⟨by simp [IsSpace, isMarkupSpace], by simp [IsSpace], by decide, by decide⟩
  have id : WrittenAttribute.WellFormed
      ⟨[' '], ['i', 'd'], some ⟨[' '], [], '"', ['x']⟩⟩ :=
    ⟨by decide, by simp [IsSpace, isMarkupSpace], by decide,
      by simp [isNameEnd, isMarkupSpace, isQuote], by simp [value]⟩
  have start : WrittenTag.WellFormed
      ⟨['p'], [⟨[' '], ['i', 'd'], some ⟨[' '], [], '"', ['x']⟩⟩], []⟩ :=
    ⟨⟨'p', [], rfl, by decide⟩, by simp [isNameEnd, isMarkupSpace, isQuote], by simp [id],
      by simp [IsSpace]⟩
  have void : WrittenTag.WellFormed ⟨['b', 'r'], [], []⟩ :=
    ⟨⟨'b', ['r'], rfl, by decide⟩, by simp [isNameEnd, isMarkupSpace, isQuote], by simp,
      by simp [IsSpace]⟩
  have stop : WrittenEnd.WellFormed ['p'] ⟨['P'], [' ']⟩ :=
    ⟨by decide, by simp [IsSpace, isMarkupSpace]⟩
  have plain : IsPlain ['a', '<'] := by
    constructor <;> simp [List.infix_cons_iff]
  simp [paragraph, Written.AllWellFormed, Written.WellFormed, Written.isText, Written.startsText,
    start, void, stop, plain]
  decide

/-- The text of the paragraph, and its forest. -/
theorem parse_write_paragraph :
    parse "<p id =\"x\">a<<br></P >" =
      ⟨[.element ⟨"p", [⟨"id", "x", ⟨3, 10⟩, ⟨3, 5⟩, some ⟨8, 9⟩⟩], false, ⟨0, 11⟩, ⟨1, 2⟩⟩
        ⟨0, 22⟩ (some ⟨17, 22⟩)
        [.text ⟨"a<", ⟨11, 13⟩⟩,
          .element ⟨"br", [], false, ⟨13, 17⟩, ⟨14, 16⟩⟩ ⟨13, 17⟩ none []]], []⟩ := by
  exact parse_write paragraph allWellFormed_paragraph

end DirectiveTemplates.Markup
