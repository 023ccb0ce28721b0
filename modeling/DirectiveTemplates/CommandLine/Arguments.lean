/-!
The arguments of the command. Options may stand on both sides of the template. A long option has
its value behind an equals sign or in the next argument; short options may share one dash, and the
last of them may have its value right behind it.
-/
namespace DirectiveTemplates.CommandLine

inductive OutputForm where
  | tree
  | html
  deriving DecidableEq, Repr

namespace OutputForm

def name : OutputForm → String
  | tree => "tree"
  | html => "html"

def ofName? (name : String) : Option OutputForm := [tree, html].find? (·.name == name)

end OutputForm

inductive Setting where
  | className
  | table
  | resources
  | project
  | data
  | form
  | verbose
  | help
  | version
  deriving DecidableEq, Repr

namespace Setting

def all : List Setting :=
  [className, table, resources, project, data, form, verbose, help, version]

def longName : Setting → String
  | className => "class"
  | table => "metadata"
  | resources => "resources"
  | project => "config"
  | data => "data"
  | form => "emit"
  | verbose => "verbose"
  | help => "help"
  | version => "version"

def letter : Setting → Option Char
  | className => some 'c'
  | table => some 'm'
  | resources => some 'r'
  | project => none
  | data => some 'd'
  | form => none
  | verbose => some 'v'
  | help => some 'h'
  | version => some 'V'

/-- What the value of an option is called; options without a value have none. -/
def valueName : Setting → Option String
  | className => some "NAME"
  | table => some "FILE"
  | resources => some "DIR"
  | project => some "FILE"
  | data => some "FILE"
  | form => some "emit"
  | verbose => none
  | help => none
  | version => none

def takesValue (s : Setting) : Bool := s.valueName.isSome

def repeats (s : Setting) : Bool := s == table

def ofLongName? (name : String) : Option Setting := all.find? (·.longName == name)

def ofLetter? (c : Char) : Option Setting := all.find? (·.letter == some c)

end Setting

inductive Misuse where
  | unknownOption (option : String)
  | missingValue (s : Setting)
  | unwantedValue (s : Setting) (value : String)
  | unknownForm (value : String)
  | repeated (s : Setting)
  | secondTemplate (argument : String)
  | missingTemplate
  deriving DecidableEq, Repr

def Misuse.message : Misuse → String
  | unknownOption option => s!"unexpected argument '{option}' found"
  | missingValue s => s!"a value is required for '--{s.longName}' but none was supplied"
  | unwantedValue s value => s!"unexpected value '{value}' for '--{s.longName}' found"
  | unknownForm value => s!"invalid value '{value}' for '--{Setting.form.longName}'"
  | repeated s => s!"the argument '--{s.longName}' cannot be used multiple times"
  | secondTemplate argument => s!"unexpected argument '{argument}' found"
  | missingTemplate => "the required template was not provided"

inductive Stop where
  | help
  | version
  | misuse (m : Misuse)
  deriving DecidableEq, Repr

structure Arguments where
  template : String
  className : Option String
  tables : List String
  resources : Option String
  project : Option String
  data : Option String
  form : OutputForm
  verbose : Bool
  deriving DecidableEq, Repr

structure Given where
  values : List (Setting × String)
  template : Option String
  /-- The option that waits for its value. -/
  waiting : Option Setting
  /-- Whether no more options can follow. -/
  closed : Bool
  deriving DecidableEq, Repr

namespace Given

def nothing : Given := ⟨[], none, none, false⟩

def give (g : Given) (s : Setting) (value : String) : Except Stop Given :=
  if !s.repeats && (g.values.lookup s).isSome then .error (.misuse (.repeated s))
  else if s == .form && (OutputForm.ofName? value).isNone then
    .error (.misuse (.unknownForm value))
  else .ok { g with values := g.values ++ [(s, value)], waiting := none }

def mark (g : Given) (s : Setting) : Except Stop Given :=
  match s with
  | .help => .error .help
  | .version => .error .version
  | _ => g.give s ""

def place (g : Given) (argument : String) : Except Stop Given :=
  match g.template with
  | some _ => .error (.misuse (.secondTemplate argument))
  | none => .ok { g with template := some argument }

def long (g : Given) (text : String) : Except Stop Given :=
  let name := text.toList.takeWhile (· != '=')
  let behind := text.toList.dropWhile (· != '=')
  match Setting.ofLongName? (String.ofList name), behind with
  | none, _ => .error (.misuse (.unknownOption ("--" ++ String.ofList name)))
  | some s, _ :: value =>
    if s.takesValue then g.give s (String.ofList value)
    else .error (.misuse (.unwantedValue s (String.ofList value)))
  | some s, [] => if s.takesValue then .ok { g with waiting := some s } else g.mark s

def letters (g : Given) : List Char → Except Stop Given
  | [] => .ok g
  | c :: rest =>
    match Setting.ofLetter? c with
    | none => .error (.misuse (.unknownOption (String.ofList ['-', c])))
    | some s =>
      if s.takesValue then
        match rest with
        | [] => .ok { g with waiting := some s }
        | '=' :: value => g.give s (String.ofList value)
        | value => g.give s (String.ofList value)
      else do (← g.mark s).letters rest

inductive Shape where
  | divider
  | long (text : String)
  | letters (text : List Char)
  | plain
  deriving DecidableEq, Repr

/-- A lone dash is no option, and two dashes end the options. -/
def shape (argument : String) : Shape :=
  match argument.toList with
  | ['-', '-'] => .divider
  | '-' :: '-' :: text => .long (String.ofList text)
  | ['-'] => .plain
  | '-' :: text => .letters text
  | _ => .plain

/-- Takes one more argument. Only a plain one can be the value that an option waits for. -/
def take (g : Given) (argument : String) : Except Stop Given :=
  let shape := if g.closed then .plain else shape argument
  match g.waiting, shape with
  | some s, .plain => g.give s argument
  | some s, _ => .error (.misuse (.missingValue s))
  | none, .divider => .ok { g with closed := true }
  | none, .long text => g.long text
  | none, .letters text => g.letters text
  | none, .plain => g.place argument

def valuesOf (g : Given) (s : Setting) : List String :=
  (g.values.filter (·.1 == s)).map Prod.snd

def finish (g : Given) : Except Stop Arguments :=
  match g.waiting, g.template with
  | some s, _ => .error (.misuse (.missingValue s))
  | none, none => .error (.misuse .missingTemplate)
  | none, some template =>
    .ok {
      template := template
      className := g.values.lookup .className
      tables := g.valuesOf .table
      resources := g.values.lookup .resources
      project := g.values.lookup .project
      data := g.values.lookup .data
      form := ((g.values.lookup .form).bind OutputForm.ofName?).getD .tree
      verbose := (g.values.lookup .verbose).isSome }

end Given

/-- Reads arguments in order; the first that asks for help or is wrong ends the reading. -/
def Arguments.parse (arguments : List String) : Except Stop Arguments := do
  (← arguments.foldlM Given.take .nothing).finish

end DirectiveTemplates.CommandLine
