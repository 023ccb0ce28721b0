import DirectiveTemplates.Binding.Compile
import DirectiveTemplates.Binding.Path
import DirectiveTemplates.CommandLine.Help
import DirectiveTemplates.CommandLine.Project
import DirectiveTemplates.Files.FileTree
import DirectiveTemplates.Live.Instance

/-!
A run of the command: loads the files a template needs, compiles it, and either describes its
problems or writes its tree or its rendering. A run writes to one of its two outputs only.
-/
namespace DirectiveTemplates.CommandLine

open Files

inductive FileRole where
  | config
  | template
  | metadata
  | data
  deriving DecidableEq, Repr

def FileRole.name : FileRole → String
  | config => "config"
  | template => "template"
  | metadata => "metadata"
  | data => "data"

inductive Failure where
  | unread (role : FileRole) (path : String) (cause : FileError)
  | invalid (role : FileRole) (path : String)
  | compile (path : String) (failure : ReadFailure)
  | render (e : Live.RenderError)

def Failure.message : Failure → String
  | unread role path cause => s!"failed to read {role.name} {path}: {cause.message}"
  | invalid role path => s!"invalid {role.name} {path}: not the JSON that is expected here"
  | compile path failure => s!"failed to compile {path}: {failure.message}: {failure.cause}"
  | render e => s!"failed to render template: {e.message}"

structure Exit where
  code : Nat
  output : String
  errors : String
  deriving DecidableEq, Repr

namespace Exit

def done : Nat := 0

def problems : Nat := 1

def failed : Nat := 2

def written (output : String) : Exit := ⟨done, output, ""⟩

def described (descriptions : List String) : Exit :=
  ⟨problems, "", String.join (descriptions.map (· ++ "\n"))⟩

def stopped (message : String) : Exit := ⟨failed, "", message ++ "\n"⟩

end Exit

def loadText (files : FileReader) (role : FileRole) (path : String) : Except Failure String :=
  (readText files path).mapError (Failure.unread role path)

def load (files : FileReader) (role : FileRole) (read? : String → Option α) (path : String) :
    Except Failure α := do
  match read? (← loadText files role path) with
  | some x => return x
  | none => throw (.invalid role path)

def loadProject (files : FileReader) (a : Arguments) : Except Failure Project :=
  match a.project with
  | none => return {}
  | some path => do
    return (← load files .config Project.decoder.run path).within (parent path)

/-- The standard classes and those of the tables; later tables replace entries of earlier ones. -/
def loadClasses (files : FileReader) (paths : List String) : Except Failure ClassTable :=
  paths.foldlM (fun classes path => do
    return classes.merge (← load files .metadata ClassTable.ofText? path)) .standard

/-- The model of a run; null when no file holds one. -/
def loadModel (files : FileReader) (a : Arguments) : Except Failure Json.Value :=
  match a.data with
  | none => return .null
  | some path => load files .data Json.Decoder.value.run path

def Plan.descriptors (p : Plan) (files : FileReader) : Resources :=
  match p.resources with
  | none => fun _ => .absent
  | some root => resourcesBelow files root

structure Job where
  compiler : Compiler
  text : SourceText
  className : String

/-- Loads what a template needs: the template first, then the class tables. -/
def Plan.job (p : Plan) (files : FileReader) : Except Failure Job := do
  let source ← loadText files .template p.template
  let classes ← loadClasses files p.tables
  let resources := Resources.withStandard p.config.descriptorRoot (p.descriptors files)
  return ⟨⟨p.config, classes, resources, Path.compile⟩, ⟨source, p.template⟩, p.className⟩

def Job.outcome (j : Job) : Compiler.Outcome := j.compiler.compile j.text.content j.className

structure Compiled where
  nodes : List TemplateNode
  diagnostics : List Diagnostic

def Job.compile (j : Job) : Except Failure Compiled :=
  match j.outcome.result with
  | .ok nodes => .ok ⟨nodes, j.outcome.progress.diagnostics⟩
  | .error failure => .error (.compile j.text.name failure)

def interpreter : Live.Interpreter := ⟨Path.evaluate, Live.standardKinds⟩

def rendering (nodes : List TemplateNode) (model : Json.Value) : Except Failure String :=
  match (Live.Instance.create interpreter nodes model).render with
  | (.ok (), live) => .ok live.html
  | (.error e, _) => .error (.render e)

/-- What is written for a tree. Only a rendering needs the model. -/
def emit (files : FileReader) (a : Arguments) (nodes : List TemplateNode) :
    Except Failure String :=
  match a.form with
  | .tree => return (TemplateNode.forestToJson nodes).prettyText ++ "\n"
  | .html => do return (← rendering nodes (← loadModel files a)) ++ "\n"

def prepare (files : FileReader) (a : Arguments) : Except Failure Job := do
  (Plan.of a (← loadProject files a)).job files

def execute (files : FileReader) (a : Arguments) : Except Failure Exit := do
  let job ← prepare files a
  let compiled ← job.compile
  if compiled.diagnostics.isEmpty then return .written (← emit files a compiled.nodes)
  else return .described (compiled.diagnostics.map job.text.describe)

def run (files : FileReader) (arguments : List String) : Exit :=
  match Arguments.parse arguments with
  | .error .help => .written helpText
  | .error .version => .written versionText
  | .error (.misuse m) => .stopped s!"error: {m.message}"
  | .ok a =>
    match execute files a with
    | .ok exit => exit
    | .error failure => .stopped s!"Error: {failure.message}"

/-- The files that a run may read, as far as the files it already has tell. -/
def wanted (files : FileReader) (a : Arguments) : List String :=
  a.project.toList ++ [a.template] ++ a.data.toList ++
    match loadProject files a with
    | .error _ => []
    | .ok project =>
      let plan := Plan.of a project
      plan.tables ++
        match plan.resources, plan.job files with
        | some root, .ok job => job.outcome.progress.requested.map (join root)
        | _, _ => []

end DirectiveTemplates.CommandLine
