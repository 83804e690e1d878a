import SingleFile.Markup.Node
import SingleFile.Markup.Path

/-!
# Printing markup trees

Every kind of node has one written form. Directives are written explicitly and
all values in double quotes; text, comments and expressions are written as they
are, without escaping.

Printing fails in one case only: the argument of a directive is a node that is
not an expression. The error names the kind of that node and the path to it. The
content of a self-closing element is not written, so nothing in it can fail.
-/

namespace SingleFile.Markup

/-- The argument of a directive is not an expression. -/
structure ArgumentError where
  kind : Kind
  path : TreePath
  deriving Repr, DecidableEq

namespace ArgumentError

/-- The same error seen from one step further out. -/
def under (step : Step) (error : ArgumentError) : ArgumentError :=
  { error with path := step :: error.path }

def message (error : ArgumentError) : String :=
  "unknown directive argument kind `" ++ error.kind.name ++ "` at " ++ TreePath.render error.path

end ArgumentError

/-- A result of printing a part, as a result for the whole. -/
def within (step : Step) (printed : Except ArgumentError String) : Except ArgumentError String :=
  printed.mapError (ArgumentError.under step)

/-- The opening tag of a template. -/
def openTemplate (attrs : List Attr) : String :=
  "<template" ++ Attr.renderAll attrs ++ ">"

/-- A directive's argument as it is written after the name. -/
def renderArgument : Option Node → Except ArgumentError String
  | none => .ok ""
  | some (.expression content true) => .ok (":" ++ content)
  | some (.expression content false) => .ok (":[" ++ content ++ "]")
  | some other => .error ⟨other.kind, [.arg]⟩

/-- Modifiers, each after a dot. -/
def renderModifiers : List String → String
  | [] => ""
  | modifier :: modifiers => "." ++ modifier ++ renderModifiers modifiers

mutual

/-- The text of a node. -/
def Node.render : Node → Except ArgumentError String
  | .root attrs children => do
    return openTemplate attrs ++ (← renderChildren 0 children) ++ "</template>"
  | .element tag props children selfClosing => do
    let opening := "<" ++ tag ++ (← renderProps 0 props)
    if selfClosing then
      return opening ++ " />"
    else
      return opening ++ ">" ++ (← renderChildren 0 children) ++ "</" ++ tag ++ ">"
  | .text content => .ok content
  | .comment content => .ok ("<!--" ++ content ++ "-->")
  | .expression content _ => .ok content
  | .interpolation content => do
    return "\x7b\x7b " ++ (← within .content content.render) ++ " \x7d\x7d"
  | .property property => property.render

/-- The text of a property, without the space before it. -/
def Property.render : Property → Except ArgumentError String
  | .attribute name value => do
    return name ++ (← renderQuoted .value value)
  | .directive name arg modifiers exp => do
    let written ← renderArgument arg
    return "v-" ++ name ++ written ++ renderModifiers modifiers ++ (← renderQuoted .exp exp)

/-- A value in double quotes after an equals sign; nothing when there is none. -/
def renderQuoted (step : Step) : Option Node → Except ArgumentError String
  | none => .ok ""
  | some node => do
    return "=\"" ++ (← within step node.render) ++ "\""

/-- Siblings one after the other; `index` is the position of the first one. -/
def renderChildren (index : Nat) : List Node → Except ArgumentError String
  | [] => .ok ""
  | node :: nodes => do
    return (← within (.child index) node.render) ++ (← renderChildren (index + 1) nodes)

/-- Properties one after the other, each with a space before it; `index` is the
position of the first one. -/
def renderProps (index : Nat) : List Property → Except ArgumentError String
  | [] => .ok ""
  | property :: props => do
    return " " ++ (← within (.prop index) property.render) ++ (← renderProps (index + 1) props)

end

/-- The text of a template. -/
def Template.render (template : Template) : Except ArgumentError String :=
  (Node.root template.attrs template.children).render

end SingleFile.Markup
