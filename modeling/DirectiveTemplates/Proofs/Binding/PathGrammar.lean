import DirectiveTemplates.Proofs.Binding.Paths
import DirectiveTemplates.Proofs.Text.Trimming

/-!
The grammar of paths. A path is a list of names with single dots between them, and white space may
stand around every token. Every text reads in exactly one way: as a path, as nothing, or as
something that goes wrong at a known token; the compiler answers what the text reads as.
-/
namespace DirectiveTemplates.Path

open Json Text

/-- A name: a letter, an underscore or a dollar sign, then these and digits. -/
def IsName (cs : List Char) : Prop :=
  ∃ c rest, cs = c :: rest ∧ isNameStart c = true ∧ ∀ d ∈ rest, isNameChar d = true

def Blank (cs : List Char) : Prop := ∀ c ∈ cs, isBlank c = true

/-- A text spells a path: names, single dots between them, and white space around the tokens. -/
inductive Spells : List (List Char) → List Char → Prop
  | last {before name after : List Char} :
    Blank before → IsName name → Blank after → Spells [name] (before ++ name ++ after)
  | more {before name after path : List Char} {names : List (List Char)} :
    Blank before → IsName name → Blank after → Spells names path →
      Spells (name :: names) (before ++ name ++ after ++ '.' :: path)

/-- The kinds of tokens that can stand before a text. A name goes on as far as it can. So does what
is neither a name nor a dot: up to the next white space. -/
inductive IsToken : TokenKind → List Char → List Char → Prop
  | name {token after : List Char} :
    IsName token → (∀ d ∈ after.head?, isNameChar d = false) → IsToken .name token after
  | dot {after : List Char} : IsToken .dot ['.'] after
  | other {c : Char} {token after : List Char} :
    isBlank c = false → isNameStart c = false → c ≠ '.' → (∀ d ∈ token, isBlank d = false) →
      (∀ d ∈ after.head?, isBlank d = true) → IsToken .other (c :: token) after

/-- After this text a name has to come: it is blank, or it ends in the dot of a path. -/
inductive Awaits : List Char → Prop
  | start {before : List Char} : Blank before → Awaits before
  | dot {names : List (List Char)} {path after : List Char} :
    Spells names path → Blank after → Awaits (path ++ '.' :: after)

/-- No name goes on from the one text into the other. -/
def Apart (before after : List Char) : Prop :=
  ∀ c ∈ before.getLast?, ∀ d ∈ after.head?, isNameChar c = true → isNameChar d = false

/-- What a text reads as. What is wrong with it is a span. -/
inductive Reading where
  | path (names : List (List Char))
  | empty
  | invalid (span : Span)
  deriving DecidableEq, Repr

inductive Reads : List Char → Reading → Prop
  | path {names : List (List Char)} {cs : List Char} : Spells names cs → Reads cs (.path names)
  | empty {cs : List Char} : Blank cs → Reads cs .empty
  /-- Nothing follows the dot. -/
  | dangling {names : List (List Char)} {before after : List Char} :
    Spells names before → Blank after →
      Reads (before ++ '.' :: after) (.invalid ⟨byteLength before, byteLength before + 1⟩)
  /-- A token that is no name stands where a name has to come. -/
  | unexpected {before token after : List Char} {kind : TokenKind} :
    Awaits before → IsToken kind token after → kind ≠ .name →
      Reads (before ++ token ++ after)
        (.invalid ⟨byteLength before, byteLength before + byteLength token⟩)
  /-- A token that is no dot stands behind a path. -/
  | trailing {names : List (List Char)} {before token after : List Char} {kind : TokenKind} :
    Spells names before → Apart before token → IsToken kind token after → kind ≠ .dot →
      Reads (before ++ token ++ after)
        (.invalid ⟨byteLength before, byteLength before + byteLength token⟩)

theorem utf8Size_dot : '.'.utf8Size = 1 := rfl

/-! The classes of characters. -/

theorem not_isBlank_of_isNameChar {c : Char} (named : isNameChar c = true) : isBlank c = false := by
  rw [Bool.eq_false_iff]
  intro blank
  simp only [isNameChar, isNameStart, Text.isNameStart, isBlank, Bool.or_eq_true, Bool.and_eq_true,
    decide_eq_true_eq, Char.le_def, UInt32.le_iff_toNat_le, Char.toNat, Char.ext_iff,
    UInt32.toNat_inj.symm] at named blank
  simp at named blank
  omega

theorem not_isNameChar_of_isBlank {c : Char} (blank : isBlank c = true) : isNameChar c = false := by
  cases named : isNameChar c with
  | false => rfl
  | true =>
    rw [not_isBlank_of_isNameChar named] at blank
    cases blank

theorem isNameChar_of_isNameStart {c : Char} (start : isNameStart c = true) :
    isNameChar c = true := by
  simp [isNameChar, start]

/-! The tokens of a text, as a relation between the two. -/

def tokenAt (start : Nat) (kind : TokenKind) (text : List Char) : Token :=
  ⟨kind, text, ⟨start, start + byteLength text⟩⟩

/-- A text falls into tokens; `offset` is where it starts. -/
inductive Lexed : Nat → List Char → List Token → Prop
  | done {offset : Nat} {cs : List Char} : Blank cs → Lexed offset cs []
  | token {offset : Nat} {before token after : List Char} {kind : TokenKind} {ts : List Token} :
    Blank before → IsToken kind token after →
      Lexed (offset + byteLength before + byteLength token) after ts →
      Lexed offset (before ++ token ++ after)
        (tokenAt (offset + byteLength before) kind token :: ts)

theorem isToken_nextToken {c : Char} {cs : List Char} (solid : isBlank c = false) :
    ∃ after, c :: cs = (nextToken (c :: cs)).2 ++ after ∧
      IsToken (nextToken (c :: cs)).1 (nextToken (c :: cs)).2 after := by
  unfold nextToken
  simp only
  by_cases start : isNameStart c = true
  · rw [if_pos start]
    refine ⟨cs.dropWhile isNameChar, by simp, .name ⟨c, _, rfl, start, ?_⟩ ?_⟩
    · exact fun d mem => List.mem_takeWhile_imp mem
    · exact not_head_dropWhile isNameChar cs
  · rw [if_neg start]
    by_cases dot : c = '.'
    · rw [if_pos dot]
      exact ⟨cs, rfl, dot ▸ .dot⟩
    · rw [if_neg dot]
      refine ⟨cs.dropWhile (!isBlank ·), by simp, .other solid (by simpa using start) dot ?_ ?_⟩
      · intro d mem
        simpa using List.mem_takeWhile_imp mem
      · intro d mem
        simpa using not_head_dropWhile (!isBlank ·) cs d mem

theorem takeWhile_append {p : Char → Bool} {cs after : List Char} (inside : ∀ d ∈ cs, p d = true)
    (outside : ∀ d ∈ after.head?, p d = false) : (cs ++ after).takeWhile p = cs := by
  rw [List.takeWhile_append_of_pos inside]
  cases after with
  | nil => simp
  | cons d after => simp [outside d rfl]

theorem IsToken.exists_cons {kind : TokenKind} {token after : List Char}
    (isToken : IsToken kind token after) :
    ∃ c rest, token = c :: rest ∧ isBlank c = false ∧
      nextToken (token ++ after) = (kind, token) := by
  cases isToken with
  | name named ends =>
    obtain ⟨c, rest, rfl, start, inside⟩ := named
    refine ⟨c, rest, rfl, not_isBlank_of_isNameChar (isNameChar_of_isNameStart start), ?_⟩
    simp [nextToken, start, takeWhile_append inside ends]
  | dot => exact ⟨'.', [], rfl, rfl, rfl⟩
  | @other c token after solid start dot inside ends =>
    refine ⟨c, token, rfl, solid, ?_⟩
    have inside' : ∀ d ∈ token, (!isBlank d) = true := by simpa using inside
    have ends' : ∀ d ∈ after.head?, (!isBlank d) = false := by simpa using ends
    simp [nextToken, start, dot, takeWhile_append inside' ends']

theorem takeWhile_isBlank {before : List Char} {c : Char} (cs : List Char) (blank : Blank before)
    (solid : isBlank c = false) :
    (before ++ c :: cs).takeWhile isBlank = before ∧
      (before ++ c :: cs).dropWhile isBlank = c :: cs := by
  rw [List.takeWhile_append_of_pos blank, List.dropWhile_append_of_pos blank]
  simp [solid]

theorem lexed_tokensWithin (count offset : Nat) (cs : List Char) (enough : cs.length ≤ count) :
    Lexed offset cs (tokensWithin count offset cs) := by
  induction count generalizing offset cs with
  | zero =>
    rw [List.length_eq_zero_iff.mp (Nat.le_zero.mp enough)]
    exact .done (by simp [Blank])
  | succ count ih =>
    unfold tokensWithin
    simp only
    have split := List.takeWhile_append_dropWhile (p := isBlank) (l := cs)
    have blank : Blank (cs.takeWhile isBlank) := fun d mem => List.mem_takeWhile_imp mem
    cases start : cs.dropWhile isBlank with
    | nil =>
      rw [start, List.append_nil] at split
      exact .done (split ▸ blank)
    | cons c rest =>
      have solid : isBlank c = false := not_head_dropWhile isBlank cs c (by rw [start]; rfl)
      obtain ⟨after, parts, isToken⟩ := isToken_nextToken solid
      rcases found : nextToken (c :: rest) with ⟨kind, token⟩
      rw [found] at parts isToken
      simp only at parts isToken
      obtain ⟨c', rest', nonempty, -, -⟩ := isToken.exists_cons
      have dropped : (c :: rest).drop token.length = after := by rw [parts, List.drop_left]
      have whole : cs = cs.takeWhile isBlank ++ token ++ after := by
        rw [List.append_assoc, ← parts, ← start, split]
      have shorter : after.length ≤ count := by
        have lengths := congrArg List.length whole
        simp only [List.length_append, nonempty, List.length_cons] at lengths
        omega
      have later := ih (offset + byteLength (cs.takeWhile isBlank) + byteLength token) after shorter
      have lexed : Lexed offset _ _ := .token blank isToken later
      rw [← whole] at lexed
      simp only [found, dropped]
      exact lexed

theorem Lexed.eq_tokensWithin {count offset : Nat} {cs : List Char} {ts : List Token}
    (lexed : Lexed offset cs ts) (enough : cs.length ≤ count) :
    ts = tokensWithin count offset cs := by
  induction lexed generalizing count with
  | @done offset cs blank =>
    cases count with
    | zero => rfl
    | succ count =>
      have nothing : cs.dropWhile isBlank = [] := List.dropWhile_eq_nil_iff.mpr blank
      unfold tokensWithin
      simp only [nothing]
  | @token offset before token after kind ts blank isToken later ih =>
    obtain ⟨c, rest, rfl, solid, next⟩ := isToken.exists_cons
    cases count with
    | zero => simp at enough
    | succ count =>
      have shorter : after.length ≤ count := by
        simp only [List.length_append, List.length_cons] at enough
        omega
      have whole : before ++ (c :: rest) ++ after = before ++ c :: (rest ++ after) := by simp
      obtain ⟨blanks, start⟩ := takeWhile_isBlank (rest ++ after) blank solid
      rw [List.cons_append] at next
      unfold tokensWithin
      simp only [whole, blanks, start, next]
      rw [ih shorter, ← List.cons_append, List.drop_left, tokenAt]

theorem lexed_tokens (cs : List Char) : Lexed 0 cs (tokens cs) :=
  lexed_tokensWithin cs.length 0 cs (Nat.le_refl _)

theorem Lexed.eq_tokens {cs : List Char} {ts : List Token} (lexed : Lexed 0 cs ts) :
    tokens cs = ts :=
  (lexed.eq_tokensWithin (Nat.le_refl _)).symm

theorem Lexed.blank {offset : Nat} {before cs : List Char} {ts : List Token} (blank : Blank before)
    (lexed : Lexed (offset + byteLength before) cs ts) : Lexed offset (before ++ cs) ts := by
  cases lexed with
  | done blank' => exact .done (List.forall_mem_append.mpr ⟨blank, blank'⟩)
  | @token _ before' token after kind ts blank' isToken later =>
    have later' : Lexed (offset + byteLength (before ++ before') + byteLength token) after ts := by
      simpa [Nat.add_assoc] using later
    have moved := Lexed.token (List.forall_mem_append.mpr ⟨blank, blank'⟩) isToken later'
    simpa [Nat.add_assoc] using moved

/-! What a text reads as decides what its tokens are. -/

section
variable {kind : TokenKind} {dot : Token} {start : Nat} {text : List Char} {ts : List Token}

theorem namesFrom_name : namesFrom dot (tokenAt start .name text :: ts) =
    (restFrom ts).map (tokenAt start .name text :: ·) := by
  rw [namesFrom]
  exact if_pos rfl

theorem namesFrom_other (other : kind ≠ .name) :
    namesFrom dot (tokenAt start kind text :: ts) = .error (tokenAt start kind text) := by
  rw [namesFrom]
  exact if_neg other

theorem restFrom_dot : restFrom (tokenAt start .dot text :: ts) =
    namesFrom (tokenAt start .dot text) ts := by
  rw [restFrom]
  exact if_pos rfl

theorem restFrom_other (other : kind ≠ .dot) :
    restFrom (tokenAt start kind text :: ts) = .error (tokenAt start kind text) := by
  rw [restFrom]
  exact if_neg other

end

theorem IsName.isNameChar {name : List Char} (named : IsName name) :
    ∀ c ∈ name, isNameChar c = true := by
  obtain ⟨c, rest, rfl, start, inside⟩ := named
  exact List.forall_mem_cons.mpr ⟨isNameChar_of_isNameStart start, inside⟩

theorem IsName.ne_nil {name : List Char} (named : IsName name) : name ≠ [] := by
  obtain ⟨c, rest, rfl, -, -⟩ := named
  exact List.cons_ne_nil c rest

theorem not_isNameChar_behind_blank {before cs : List Char} (blank : Blank before)
    (next : before = [] → ∀ d ∈ cs.head?, isNameChar d = false) :
    ∀ d ∈ (before ++ cs).head?, isNameChar d = false := by
  cases before with
  | nil => exact next rfl
  | cons c before =>
    intro d mem
    cases Option.mem_def.mp mem
    exact not_isNameChar_of_isBlank (blank c List.mem_cons_self)

/-- A name at the end of a path ends there, with white space or with what is apart from it. -/
theorem not_isNameChar_of_apart {before name after rest : List Char} (named : IsName name)
    (blank : Blank after) (apart : Apart (before ++ name ++ after) rest) :
    ∀ d ∈ (after ++ rest).head?, isNameChar d = false := by
  apply not_isNameChar_behind_blank blank
  rintro rfl d mem
  obtain ⟨c, last⟩ : ∃ c, name.getLast? = some c := by
    cases ends : name.getLast? with
    | none => exact absurd (List.getLast?_eq_none_iff.mp ends) named.ne_nil
    | some c => exact ⟨c, rfl⟩
  refine apart c ?_ d mem (named.isNameChar c (List.mem_of_getLast? last))
  simp [List.getLast?_append, last]

/-- The tokens of a path are its names and the dots between them, whatever follows the path. -/
theorem Spells.lexed {names : List (List Char)} {before rest : List Char} {ts : List Token}
    {offset : Nat} (spells : Spells names before) (apart : Apart before rest)
    (later : Lexed (offset + byteLength before) rest ts) :
    ∃ (found : List Token) (first : Token) (others : List Token),
      found.map (·.text) = names ∧ Lexed offset (before ++ rest) (first :: others) ∧
      ∀ dot, namesFrom dot (first :: others) = (restFrom ts).map (found ++ ·) := by
  induction spells generalizing offset with
  | @last before name after blank named blank' =>
    have isToken := IsToken.name named (not_isNameChar_of_apart named blank' apart)
    have behind : Lexed (offset + byteLength before + byteLength name) (after ++ rest) ts :=
      .blank blank' (by simpa [Nat.add_assoc] using later)
    refine ⟨[tokenAt (offset + byteLength before) .name name], _, ts, rfl,
      by simpa using Lexed.token blank isToken behind, ?_⟩
    intro dot
    exact namesFrom_name
  | @more before name after path names blank named blank' spells ih =>
    have apart' : Apart path rest := by
      intro c last
      apply apart c
      cases path with
      | nil => cases last
      | cons d path => simpa [List.getLast?_append] using last
    have later' : Lexed (offset + byteLength before + byteLength name + byteLength after + 1 +
        byteLength path) rest ts := by
      simpa [Nat.add_assoc, utf8Size_dot] using later
    obtain ⟨found, first, others, texts, lexed, spelled⟩ :=
      ih apart' later'
    have isToken : IsToken .name name (after ++ '.' :: (path ++ rest)) := by
      refine .name named (not_isNameChar_behind_blank blank' ?_)
      rintro - d mem
      cases Option.mem_def.mp mem
      rfl
    have behind := Lexed.token blank' .dot lexed
    have whole := Lexed.token blank (by simpa using isToken) behind
    refine ⟨tokenAt (offset + byteLength before) .name name :: found, _, _, ?_,
      by simpa using whole, ?_⟩
    · rw [List.map_cons, texts]
      rfl
    · intro dot
      rw [namesFrom_name, restFrom_dot, spelled]
      cases restFrom ts <;> rfl

def reading (cs : List Char) : Reading :=
  match tokens cs with
  | [] => .empty
  | first :: rest =>
    match namesFrom first (first :: rest) with
    | .error t => .invalid t.span
    | .ok names => .path (names.map (·.text))

theorem reading_of_lexed {cs : List Char} {first : Token} {others : List Token}
    (lexed : Lexed 0 cs (first :: others)) :
    reading cs = match namesFrom first (first :: others) with
      | .error t => .invalid t.span
      | .ok names => .path (names.map (·.text)) := by
  rw [reading, lexed.eq_tokens]

theorem exists_lexed (offset : Nat) (cs : List Char) : ∃ ts, Lexed offset cs ts :=
  ⟨_, lexed_tokensWithin cs.length offset cs (Nat.le_refl _)⟩

theorem blank_nil : Blank [] := List.forall_mem_nil _

theorem apart_dot (before after : List Char) : Apart before ('.' :: after) := by
  intro c _ d mem _
  cases Option.mem_def.mp mem
  rfl

/-- What follows a path and is wrong there is wrong in the whole text. -/
theorem reading_behind_path {names : List (List Char)} {before rest : List Char}
    {ts : List Token} {t : Token} (spells : Spells names before) (apart : Apart before rest)
    (later : Lexed (0 + byteLength before) rest ts) (wrong : restFrom ts = .error t) :
    reading (before ++ rest) = .invalid t.span := by
  obtain ⟨found, first, others, -, lexed, spelled⟩ :=
    spells.lexed apart later
  rw [reading_of_lexed lexed, spelled, wrong]
  rfl

theorem Reads.eq_reading {cs : List Char} {v : Reading} (reads : Reads cs v) : reading cs = v := by
  cases reads with
  | @path names cs spells =>
    have nothing : Apart cs [] := by
      intro c _ d mem
      cases mem
    have done : Lexed (0 + byteLength cs) [] [] := .done blank_nil
    obtain ⟨found, first, others, texts, lexed, spelled⟩ :=
      spells.lexed nothing done
    rw [List.append_nil] at lexed
    rw [reading_of_lexed lexed, spelled]
    simp [restFrom, Except.map, texts]
  | empty blank => rw [reading, (Lexed.done blank).eq_tokens]
  | @dangling names before after spells blank =>
    have later : Lexed (0 + byteLength before) _ _ := .token blank_nil .dot (.done blank)
    have wrong := reading_behind_path spells (apart_dot before after) (by simpa using later)
      (restFrom_dot.trans (by rw [namesFrom]))
    simpa [tokenAt, utf8Size_dot] using wrong
  | @unexpected before token after kind awaits isToken other =>
    cases awaits with
    | start blank =>
      obtain ⟨ts, later⟩ := exists_lexed (0 + byteLength before + byteLength token) after
      rw [reading_of_lexed (.token blank isToken later), namesFrom_other other]
      simp [tokenAt]
    | @dot names path after' spells blank =>
      obtain ⟨ts, later⟩ := exists_lexed
        (0 + byteLength path + byteLength ['.'] + byteLength after' + byteLength token) after
      have behind : Lexed (0 + byteLength path) _ _ :=
        .token blank_nil .dot (.token blank isToken later)
      have wrong := reading_behind_path spells (apart_dot path _) (by simpa using behind)
        (restFrom_dot.trans (namesFrom_other other))
      simpa [tokenAt, Nat.add_assoc] using wrong
  | @trailing names before token after kind spells apart isToken other =>
    obtain ⟨ts, later⟩ := exists_lexed (0 + byteLength before + byteLength token) after
    have behind : Lexed (0 + byteLength before) _ _ := .token blank_nil isToken later
    obtain ⟨c, rest, rfl, -, -⟩ := isToken.exists_cons
    have apart' : Apart before (c :: rest ++ after) := apart
    have wrong := reading_behind_path spells apart' (by simpa using behind) (restFrom_other other)
    simpa [tokenAt] using wrong

/-! The tokens of a text decide what it reads as. -/

theorem Spells.append_blank {names : List (List Char)} {path after : List Char}
    (spells : Spells names path) (blank : Blank after) : Spells names (path ++ after) := by
  induction spells with
  | last blank' named blank'' =>
    rw [List.append_assoc]
    exact .last blank' named (List.forall_mem_append.mpr ⟨blank'', blank⟩)
  | more blank' named blank'' _ ih =>
    rw [List.append_assoc, List.cons_append]
    exact .more blank' named blank'' ih

theorem Spells.append_name {names : List (List Char)} {path before name : List Char}
    (spells : Spells names path) (blank : Blank before) (named : IsName name) :
    Spells (names ++ [name]) (path ++ '.' :: (before ++ name)) := by
  induction spells with
  | last blank' named' blank'' =>
    refine .more blank' named' blank'' ?_
    simpa using Spells.last blank named blank_nil
  | more blank' named' blank'' _ ih =>
    rw [List.append_assoc, List.cons_append]
    exact .more blank' named' blank'' ih

theorem Awaits.append_blank {before after : List Char} (awaits : Awaits before)
    (blank : Blank after) : Awaits (before ++ after) := by
  cases awaits with
  | start blank' => exact .start (List.forall_mem_append.mpr ⟨blank', blank⟩)
  | dot spells blank' =>
    rw [List.append_assoc, List.cons_append]
    exact .dot spells (List.forall_mem_append.mpr ⟨blank', blank⟩)

theorem Apart.blank {before after rest : List Char} (apart : after = [] → Apart before rest)
    (blank : Blank after) : Apart (before ++ after) rest := by
  intro c last d mem
  cases after with
  | nil => exact apart rfl c (by simpa using last) d mem
  | cons e after =>
    have inside : c ∈ e :: after := by
      apply List.mem_of_getLast?
      simpa [List.getLast?_append, List.getLast?_cons] using last
    intro named
    rw [not_isNameChar_of_isBlank (blank c inside)] at named
    cases named

theorem Lexed.blank_of_nil {offset : Nat} {cs : List Char} (lexed : Lexed offset cs []) :
    Blank cs := by
  cases lexed
  assumption

/-- What the names of a path, or the token that is wrong with it, say of the whole text. -/
def Lands (whole : List Char) (names : List (List Char)) : Except Token (List Token) → Prop
  | .ok found => Spells (names ++ found.map (·.text)) whole
  | .error t => Reads whole (.invalid t.span)

/-- The two states of reading a path: behind a name, and where a name has to come. Behind a name
the text so far is a path; where a name has to come, any name makes it one. -/
theorem lands_of_lexed {offset : Nat} {cs : List Char} {ts : List Token}
    (lexed : Lexed offset cs ts) (before : List Char) (names : List (List Char))
    (stands : offset = byteLength before) :
    (Spells names before → Apart before cs → Lands (before ++ cs) names (restFrom ts)) ∧
    ((∀ blank name, Blank blank → IsName name →
        Spells (names ++ [name]) (before ++ blank ++ name)) →
      Awaits before → ∀ dot : Token, (ts = [] → Reads (before ++ cs) (.invalid dot.span)) →
      Lands (before ++ cs) names (namesFrom dot ts)) := by
  induction lexed generalizing before names with
  | @done offset cs blank =>
    constructor
    · intro spells _
      rw [restFrom]
      simpa [Lands] using spells.append_blank blank
    · intro _ _ dot dangling
      rw [namesFrom]
      exact dangling rfl
  | @token offset blanks token after kind ts blank isToken later ih =>
    subst stands
    have moved : byteLength before + byteLength blanks + byteLength token =
        byteLength (before ++ blanks ++ token) := by simp [Nat.add_assoc]
    have whole : before ++ (blanks ++ token ++ after) = before ++ blanks ++ token ++ after := by
      simp
    have place : byteLength before + byteLength blanks = byteLength (before ++ blanks) := by simp
    rw [whole]
    constructor
    · intro spells apart
      have spells' := spells.append_blank blank
      by_cases dot : kind = .dot
      · subst dot
        cases isToken
        rw [restFrom_dot]
        apply (ih _ names moved).2
        · intro blank' name blanks' named
          simpa using spells'.append_name blanks' named
        · exact .dot spells' blank_nil
        · rintro rfl
          have dangling := Reads.dangling spells' later.blank_of_nil
          simpa [tokenAt, utf8Size_dot, Nat.add_assoc] using dangling
      · rw [restFrom_other dot, Lands, tokenAt, place]
        refine .trailing spells' (Apart.blank ?_ blank) isToken dot
        rintro rfl
        obtain ⟨c, rest, rfl, -, -⟩ := isToken.exists_cons
        exact apart
    · intro goesOn awaits dot _
      by_cases name : kind = .name
      · subst name
        cases isToken with
        | name named ends =>
        rw [namesFrom_name]
        have spells := goesOn blanks token blank named
        have apart : Apart (before ++ blanks ++ token) after := fun c _ d mem _ => ends d mem
        have lands := (ih _ (names ++ [token]) moved).1 spells apart
        cases outcome : restFrom ts with
        | error t =>
          rw [outcome] at lands
          exact lands
        | ok found =>
          rw [outcome] at lands
          simpa [Lands, Except.map, tokenAt] using lands
      · rw [namesFrom_other name, Lands, tokenAt, place]
        exact .unexpected (awaits.append_blank blank) isToken name

theorem reads_reading (cs : List Char) : Reads cs (reading cs) := by
  have lexed := lexed_tokens cs
  rw [reading]
  cases ts : tokens cs with
  | nil =>
    rw [ts] at lexed
    exact .empty lexed.blank_of_nil
  | cons first rest =>
    rw [ts] at lexed
    have lands := (lands_of_lexed lexed [] [] rfl).2
      (fun blank name blanks named => by simpa using Spells.last blanks named blank_nil)
      (.start blank_nil) first (by intro none; cases none)
    simp only
    cases outcome : namesFrom first (first :: rest) with
    | error t =>
      rw [outcome] at lands
      exact lands
    | ok found =>
      rw [outcome] at lands
      exact .path lands

/-- What the compiler answers to a text that reads in some way. -/
structure Answered (text : String) (scope : Scope) (r : CompiledExpression) (v : Reading) :
    Prop where
  /-- A path whose head is a variable is compiled. It has the type of the variable when there is
  nothing but the head. -/
  known : ∀ head members type, v = .path (head :: members) →
    scope.type? (String.ofList head) = some type →
    r = ⟨⟨.object [("path", .array ((head :: members).map (.string <| String.ofList ·)))],
      if members = [] then type else .unknown⟩, []⟩
  unknown : ∀ head members, v = .path (head :: members) →
    scope.type? (String.ofList head) = none →
    ∃ span : Span, span.slice text = String.ofList head ∧ span.Aligned text.toList ∧
      r = .failed ⟨span, "Variable " ++ String.ofList head ++ " was not found"⟩
  empty : v = .empty → r = .failed ⟨⟨0, text.utf8ByteSize⟩, "Empty expression"⟩
  invalid : ∀ span, v = .invalid span →
    span.Aligned text.toList ∧ r = .failed ⟨span, "Invalid expression"⟩

theorem Lexed.covers_first {cs : List Char} {first : Token} {rest : List Token}
    (lexed : Lexed 0 cs (first :: rest)) : first.span.Covers cs first.text := by
  cases lexed with
  | @token _ before token after kind ts blank isToken later =>
    exact ⟨before, after, rfl, by simp [tokenAt]⟩

theorem answered_reading (text : String) (expected : Option ValueType) (scope : Scope)
    (find : ClassFinder) :
    Answered text scope (compile text expected scope find) (reading text.toList) := by
  have lexed := lexed_tokens text.toList
  have aligned := diagnostics_aligned text expected scope find
  unfold compile at aligned ⊢
  unfold reading
  simp only at aligned ⊢
  cases ts : tokens text.toList with
  | nil =>
    refine ⟨?_, ?_, ?_, ?_⟩
    · intro head members type path
      cases path
    · intro head members path
      cases path
    · intro _
      rw [utf8ByteSize_eq]
      rfl
    · intro span wrong
      cases wrong
  | cons first rest =>
    rw [ts] at lexed aligned
    simp only at aligned ⊢
    cases outcome : namesFrom first (first :: rest) with
    | error t =>
      rw [outcome] at aligned
      refine ⟨?_, ?_, ?_, ?_⟩
      · intro head members type path
        cases path
      · intro head members path
        cases path
      · intro none
        cases none
      · intro span wrong
        cases wrong
        exact ⟨aligned _ List.mem_cons_self, rfl⟩
    | ok names =>
      obtain ⟨others, rfl⟩ := exists_names outcome
      refine ⟨?_, ?_, ?_, ?_⟩
      · intro head members type path known
        cases path
        simp only [known]
        simp [planOf]
      · intro head members path unknown
        cases path
        simp only [unknown]
        have covers := lexed.covers_first
        exact ⟨first.span, covers.slice, covers.aligned, rfl⟩
      · intro none
        cases none
      · intro span wrong
        cases wrong

/-- Every text reads in exactly one way, and the compiler answers what it reads as. -/
theorem compile_answers_reading (text : String) (expected : Option ValueType) (scope : Scope)
    (find : ClassFinder) :
    ∃ v, (∀ v', Reads text.toList v' ↔ v' = v) ∧
      Answered text scope (compile text expected scope find) v := by
  refine ⟨reading text.toList, ?_, answered_reading text expected scope find⟩
  intro v
  constructor
  · exact fun reads => reads.eq_reading.symm
  · rintro rfl
    exact reads_reading text.toList

/-- The dot behind the path is a token of its own, and so is all that stands behind the name. -/
example : reading "a . b .".toList = .invalid ⟨6, 7⟩ ∧ reading "a é.b c".toList = .invalid ⟨2, 6⟩ :=
  ⟨by decide +kernel, by decide +kernel⟩

end DirectiveTemplates.Path
