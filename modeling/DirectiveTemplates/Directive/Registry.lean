import DirectiveTemplates.Directive.ClassTable
import DirectiveTemplates.Directive.Resource
import DirectiveTemplates.Source.Diagnostic

/-!
The directives a template may use, by their tags. A package is registered under a prefix: its
descriptor lists the directive classes, and each of them gives a tag.
-/
namespace DirectiveTemplates

inductive PackageProblem where
  | notFound (package : String)
  | refused (package message : String)
  | unreadable (package message : String)
  | unknownClass (name : String)
  | noDirective (name : String)
  deriving DecidableEq, Repr

def PackageProblem.message : PackageProblem → String
  | notFound package => s!"Directive package was not found: {package}"
  | refused package message => s!"Error opening directive package {package}: {message}"
  | unreadable package message => s!"Error reading directive package {package}: {message}"
  | unknownClass name => s!"Class {name} declared by directive package was not found"
  | noDirective name => s!"Class {name} is not a directive"

/-- The failure that ends a compilation: a descriptor that was opened could not be read. -/
structure ReadFailure where
  resource : String
  cause : String
  deriving DecidableEq, Repr

def ReadFailure.message (f : ReadFailure) : String :=
  s!"I/O error reading directive package resource {f.resource}"

structure Registry where
  directives : OrderedMap Signature
  /-- The signatures of the classes that were looked at before. -/
  described : OrderedMap Signature
  deriving Repr, Inhabited

namespace Registry

def empty : Registry := ⟨.empty, .empty⟩

def tag (space name : String) : String := space ++ ":" ++ name

def size (r : Registry) : Nat := r.directives.size

def isEmpty (r : Registry) : Bool := r.directives.isEmpty

def resolve (r : Registry) (space name : String) : Option Signature :=
  r.directives.get? (tag space name)

/-- Registers a directive under a prefix, in the place of an earlier one with its tag. -/
def register (r : Registry) (space : String) (s : Signature) : Registry :=
  { r with directives := r.directives.insert (tag space s.name) s }

def signatureOf (classes : ClassSource) (name : String) : Except PackageProblem Signature :=
  match classes name with
  | none => .error (.unknownClass name)
  | some none => .error (.noDirective name)
  | some (some s) => .ok { s with owner := name }

/-- The signature of a directive class. A class that was found once is not looked up again. -/
def describe (r : Registry) (classes : ClassSource) (name : String) :
    Except PackageProblem Signature × Registry :=
  match r.described.get? name with
  | some s => (.ok s, r)
  | none =>
    match signatureOf classes name with
    | .ok s => (.ok s, { r with described := r.described.insert name s })
    | .error p => (.error p, r)

def enter (classes : ClassSource) (space : String) (r : Registry) (name : String) :
    Registry × List PackageProblem :=
  match r.describe classes name with
  | (.ok s, r) => (r.register space s, [])
  | (.error p, r) => (r, [p])

def enterAll (classes : ClassSource) (space : String) :
    List String → Registry → Registry × List PackageProblem
  | [], r => (r, [])
  | name :: names, r =>
    let (r, problems) := enter classes space r name
    let (r, more) := enterAll classes space names r
    (r, problems ++ more)

structure Use where
  registry : Registry
  diagnostics : List Diagnostic
  failure : Option ReadFailure

/-- What a failed read means under a policy. -/
def onFailure (policy : ReadPolicy) (package resource cause : String) :
    List PackageProblem × Option ReadFailure :=
  match policy with
  | .fatal => ([], some ⟨resource, cause⟩)
  | .report => ([.unreadable package cause], none)

/-- Registers the directives of a package under a prefix. Problems are reported at `anchor`. -/
def usePackage (config : Config) (classes : ClassSource) (resources : Resources)
    (space package : String) (anchor : Span) (r : Registry) : Use :=
  let report (ps : List PackageProblem) : List Diagnostic := ps.map fun p => ⟨anchor, p.message⟩
  let resource := config.descriptorResource package
  match resources resource with
  | .absent => ⟨r, report [.notFound package], none⟩
  | .refused message => ⟨r, report [.refused package message], none⟩
  | .stream bytes failure =>
    let names := (descriptorEntries bytes failure).map fun entry => package ++ "." ++ entry
    let (r, problems) := enterAll classes space names r
    match failure with
    | none => ⟨r, report problems, none⟩
    | some cause =>
      let (more, fatal) := onFailure config.readPolicy package resource cause
      ⟨r, report (problems ++ more), fatal⟩

end Registry

end DirectiveTemplates
