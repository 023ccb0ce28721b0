import DirectiveTemplates.Binding.Imports
import DirectiveTemplates.Binding.Scope
import DirectiveTemplates.Source.Diagnostic

/-!
What the compiler needs of an expression language. The language reads the text of an attribute
under the variables and classes in force there, and its messages point into that text.
-/
namespace DirectiveTemplates

/-- A compiled expression; its diagnostics count from the start of the expression. -/
structure CompiledExpression where
  plan : TypedPlan
  diagnostics : List Diagnostic
  deriving Repr, Inhabited

namespace CompiledExpression

def failed (d : Diagnostic) : CompiledExpression := ⟨.invalid, [d]⟩

end CompiledExpression

/-- Compiles a text. The expected type is absent where the result is not used. -/
abbrev ExpressionCompiler :=
  String → Option ValueType → Scope → ClassFinder → CompiledExpression

abbrev Evaluator := Json.Value → (String → Option Json.Value) → Json.Value

end DirectiveTemplates
