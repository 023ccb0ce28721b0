import DirectiveTemplates.Binding.Tree
import DirectiveTemplates.Directive.Registry
import DirectiveTemplates.Markup.Forest

/-!
Compiles a template: reads its markup, resolves directive tags in document order, binds their
attributes and reports every problem at its place in the source. Only a package descriptor that
cannot be read ends a compilation, and only when the configuration says so.
-/
namespace DirectiveTemplates

inductive TemplateProblem where
  | unknownImport (name : String)
  | illegalUse
  | undefinedDirective (tag : String)
  | repeatedVariable (name : String)
  | missingAttribute (name : String)
  | unexpectedContent (className : String)
  deriving DecidableEq, Repr

def TemplateProblem.message : TemplateProblem → String
  | unknownImport name => s!"Class was not found: {name}"
  | illegalUse => "Illegal syntax for 'use' instruction"
  | undefinedDirective tag => s!"Undefined directive {tag}"
  | repeatedVariable name => s!"Variable {name} is already used by the same directive"
  | missingAttribute name => s!"Missing required attribute: {name}"
  | unexpectedContent className => s!"Directive {className} should not have any content"

structure Compiler where
  config : Config
  classes : ClassTable
  resources : Resources
  expressions : ExpressionCompiler

/-- One use of the expression compiler: the attribute text and what was in force. -/
structure CompileCall where
  text : String
  expected : Option ValueType
  scope : Scope
  imports : Imports
  offset : Nat
  deriving Repr

structure Progress where
  registry : Registry
  imports : Imports
  scope : Scope
  diagnostics : List Diagnostic
  calls : List CompileCall
  requested : List String
  deriving Repr

namespace Progress

def start : Progress := ⟨.empty, .none, .empty, [], [], []⟩

def report (p : Progress) (ds : List Diagnostic) : Progress :=
  { p with diagnostics := p.diagnostics ++ ds }

def retract (p : Progress) (name : String) : Progress := { p with scope := p.scope.retract name }

end Progress

/-- A step of a compilation. What was found before a failure is kept. -/
abbrev CompileM (α : Type) := ExceptT ReadFailure (StateM Progress) α

namespace CompileM

def report (ds : List Diagnostic) : CompileM Unit := modify (·.report ds)

def problem (span : Span) (p : TemplateProblem) : CompileM Unit := report [⟨span, p.message⟩]

/-- Takes back declarations after a step, also when the step fails. -/
def retracting (names : List String) (x : CompileM α) : CompileM α :=
  ExceptT.mk fun p =>
    let (outcome, p) := x.run p
    (outcome, names.foldl Progress.retract p)

end CompileM

namespace Compiler

open CompileM

def thisName : String := "this"

def usePackage (c : Compiler) (space package : String) (anchor : Span) : CompileM Unit := do
  let p ← get
  let use := p.registry.usePackage c.config c.classes c.resources space package anchor
  let next : Progress :=
    { p with
      registry := use.registry
      diagnostics := p.diagnostics ++ use.diagnostics
      requested := p.requested ++ [c.config.descriptorResource package] }
  set next
  match use.failure with
  | none => pure ()
  | some failure => throw failure

/-- Imports a package with a star, or a class that is found under the imports so far. -/
def importName (c : Compiler) (i : Markup.Instruction) : CompileM Unit := do
  let name := QualifiedName.normalize i.content
  match QualifiedName.starPackage? name with
  | some package => modify fun p => { p with imports := p.imports.importPackage package }
  | none =>
    match (← get).imports.find c.classes.finder name with
    | some full => modify fun p => { p with imports := p.imports.importClass full }
    | none => problem i.contentSpan (.unknownImport name)

def splitUse? (content : String) : Option (String × String) := do
  let (space, package) ← Text.splitFirst ':' content.toList
  let space := String.ofList (Text.trim space)
  let package := QualifiedName.normalize (String.ofList package)
  if space.isEmpty ∨ package.isEmpty then none else some (space, package)

def instruction (c : Compiler) (i : Markup.Instruction) : CompileM Unit :=
  if i.target = "import" then c.importName i
  else if i.target = "use" then
    match splitUse? i.content with
    | some (space, package) => c.usePackage space package i.contentSpan
    | none => problem i.contentSpan .illegalUse
  else pure ()

def findAttribute (tag : Markup.StartTag) (spec : AttributeSpec) :
    CompileM (Option Markup.Attribute) := do
  match tag.attribute? spec.name with
  | some a => return some a
  | none =>
    if spec.required then problem tag.span (.missingAttribute spec.name)
    return none

/-- Declares the variables of a directive. A name that the directive already uses is left out. -/
def bindVariables (tag : Markup.StartTag) :
    List AttributeSpec → List VariableBinding → CompileM (List VariableBinding)
  | [], bound => return bound
  | spec :: specs, bound => do
    match ← findAttribute tag spec with
    | none => bindVariables tag specs bound
    | some a =>
      let name := String.ofList (Text.trim a.value.toList)
      if bound.any (·.name == name) then
        problem a.valueOrNameSpan (.repeatedVariable name)
        bindVariables tag specs bound
      else
        modify fun p => { p with scope := p.scope.declare name spec.type }
        bindVariables tag specs (bound ++ [⟨spec.setter, spec.type, name⟩])

def compileValue (c : Compiler) (a : Markup.Attribute) (expected : Option ValueType) :
    CompileM TypedPlan := do
  let p ← get
  let compiled := c.expressions a.value expected p.scope (p.imports.find c.classes.finder)
  let call : CompileCall := ⟨a.value, expected, p.scope, p.imports, a.valueOffset⟩
  let next : Progress :=
    { p with
      diagnostics := p.diagnostics ++ compiled.diagnostics.map (·.shift a.valueOffset)
      calls := p.calls ++ [call] }
  set next
  return compiled.plan

structure Expressions where
  computations : List ComputationBinding
  actions : List ActionBinding

def bindExpressions (c : Compiler) (tag : Markup.StartTag) :
    List AttributeSpec → CompileM Expressions
  | [] => return ⟨[], []⟩
  | spec :: specs => do
    match ← findAttribute tag spec with
    | none => c.bindExpressions tag specs
    | some a =>
      let expected := if spec.role = .action then none else some spec.type
      let plan ← c.compileValue a expected
      let rest ← c.bindExpressions tag specs
      if spec.role = .action then
        return { rest with actions := ⟨spec.setter, plan.plan⟩ :: rest.actions }
      else
        return { rest with computations := ⟨spec.setter, plan⟩ :: rest.computations }

/-- Elements with a namespace are directives; comments and instructions leave no node. The
content of a directive is compiled only when the directive takes it. -/
def directiveParts (c : Compiler) (tag : Markup.StartTag) (s : Signature) :
    CompileM DirectiveUse := do
  let binders ← bindVariables tag (s.withRole (· = .binder)) []
  let expressions ← c.bindExpressions tag (s.withRole (· ≠ .binder))
  return ⟨s.owner, s.name, binders, expressions.computations, expressions.actions, s.contentSetter⟩

mutual

def node (c : Compiler) : Markup.Node → CompileM (List TemplateNode)
  | .text t => return [.text t.value]
  | .comment _ => return []
  | .instruction i => do
    c.instruction i
    return []
  | .element tag span _ children =>
    match Markup.splitNamespace tag.name with
    | none => do
      let attributes := OrderedMap.ofList (tag.attributes.map fun a => (a.name, a.value))
      return [.element tag.name attributes (← c.nodes children)]
    | some (space, name) => do
      match (← get).registry.resolve space name with
      | none =>
        problem tag.nameSpan (.undefinedDirective tag.name)
        return []
      | some s =>
        let use ← c.directiveParts tag s
        retracting (use.binders.map (·.name)).reverse do
          if s.contentSetter.isSome then
            return [.directive use (← c.nodes children)]
          else
            if !s.ignoresContent && !children.isEmpty then
              problem span (.unexpectedContent s.owner)
            return [.directive use []]

def nodes (c : Compiler) : List Markup.Node → CompileM (List TemplateNode)
  | [] => return []
  | n :: ns => do
    let first ← c.node n
    let rest ← c.nodes ns
    return first ++ rest

end

/-- Uses the default package, then reads the markup, then binds it. -/
def template (c : Compiler) (source className : String) : CompileM (List TemplateNode) := do
  c.usePackage c.config.defaultPrefix c.config.defaultPackage ⟨0, 0⟩
  let forest := Markup.parse source
  modify fun p => { p with scope := p.scope.declare thisName (.simple className) }
  report forest.problems
  retracting [thisName] (c.nodes forest.nodes)

structure Outcome where
  result : Except ReadFailure (List TemplateNode)
  progress : Progress

def compile (c : Compiler) (source className : String) : Outcome :=
  let (result, progress) := (c.template source className).run Progress.start
  ⟨result, progress⟩

end Compiler

end DirectiveTemplates
