import DirectiveTemplates.Binding.Expression

/-!
The path language: a variable followed by member names, with dots between them. A plan lists the
names, and evaluation looks up the first one and then one member after another.
-/
namespace DirectiveTemplates.Path

open Json

def isNameStart (c : Char) : Bool := Text.isNameStart c || c = '_' || c = '$'

def isNameChar (c : Char) : Bool := isNameStart c || ('0' ≤ c && c ≤ '9')

inductive TokenKind where
  | name
  | dot
  | other
  deriving DecidableEq, Repr

structure Token where
  kind : TokenKind
  text : List Char
  span : Span
  deriving DecidableEq, Repr

/-- The kind and the text of the token at the start of a text that is not white space. -/
def nextToken : List Char → TokenKind × List Char
  | [] => (.other, [])
  | c :: cs =>
    if isNameStart c then (.name, c :: cs.takeWhile isNameChar)
    else if c = '.' then (.dot, [c])
    else (.other, c :: cs.takeWhile (!Text.isBlank ·))

/-- The tokens of a text that starts at `offset`, at most `count` of them. -/
def tokensWithin : Nat → Nat → List Char → List Token
  | 0, _, _ => []
  | count + 1, offset, cs =>
    let start := offset + Text.byteLength (cs.takeWhile Text.isBlank)
    match cs.dropWhile Text.isBlank with
    | [] => []
    | c :: rest =>
      let (kind, text) := nextToken (c :: rest)
      let stop := start + Text.byteLength text
      ⟨kind, text, ⟨start, stop⟩⟩ :: tokensWithin count stop ((c :: rest).drop text.length)

def tokens (cs : List Char) : List Token := tokensWithin cs.length 0 cs

inductive Problem where
  | empty
  | invalid
  | unknownVariable (name : String)
  deriving DecidableEq, Repr

def Problem.message : Problem → String
  | empty => "Empty expression"
  | invalid => "Invalid expression"
  | unknownVariable name => s!"Variable {name} was not found"

mutual

/-- The names of a path that goes on with a name; `dot` is the dot before it. The error is the
token that cannot stand where it does, or the dot that nothing follows. -/
def namesFrom (dot : Token) : List Token → Except Token (List Token)
  | [] => .error dot
  | t :: rest => if t.kind = .name then (restFrom rest).map (t :: ·) else .error t

def restFrom : List Token → Except Token (List Token)
  | [] => .ok []
  | t :: rest => if t.kind = .dot then namesFrom t rest else .error t

end

def planOf (names : List Token) : Value :=
  .object [("path", .array (names.map fun t => .string (String.ofList t.text)))]

/-- Compiles a path. Only a path of one name has the type of its variable. -/
def compile : ExpressionCompiler := fun text _ scope _ =>
  let cs := text.toList
  match tokens cs with
  | [] => .failed ⟨⟨0, Text.byteLength cs⟩, Problem.empty.message⟩
  | first :: rest =>
    match namesFrom first (first :: rest) with
    | .error t => .failed ⟨t.span, Problem.invalid.message⟩
    | .ok names =>
      let head := String.ofList first.text
      match scope.type? head with
      | none => .failed ⟨first.span, (Problem.unknownVariable head).message⟩
      | some type => ⟨⟨planOf names, if names.length = 1 then type else .unknown⟩, []⟩

/-- The texts in the list of a plan; what is not a path has none. -/
def namesOf (plan : Value) : List String :=
  match plan.member? "path" with
  | some (.array items) => items.filterMap fun
    | .string s => some s
    | _ => none
  | _ => []

/-- What is not bound or not a member is null. -/
def evaluate : Evaluator := fun plan lookup =>
  match namesOf plan with
  | [] => .null
  | head :: members =>
    members.foldl (fun v name => (v.member? name).getD .null) ((lookup head).getD .null)

end DirectiveTemplates.Path
