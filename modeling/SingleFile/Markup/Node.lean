import SingleFile.Attr

/-!
# Markup trees

A template is a forest of nodes. Attributes and directives are properties of
elements; a property can also be handled as a node of its own, as positions such
as a directive's argument hold a node of any kind.
-/

namespace SingleFile.Markup

mutual

/-- A node of a markup tree. -/
inductive Node where
  /-- The whole template with the attributes of its opening tag. -/
  | root (attrs : List Attr) (children : List Node)
  | element (tag : String) (props : List Property) (children : List Node) (selfClosing : Bool)
  | text (content : String)
  | comment (content : String)
  /-- An expression, or a plain name where `isStatic` holds. -/
  | expression (content : String) (isStatic : Bool)
  | interpolation (content : Node)
  | property (prop : Property)

/-- A property of an element. -/
inductive Property where
  | attribute (name : String) (value : Option Node)
  | directive (name : String) (arg : Option Node) (modifiers : List String)
      (exp : Option Node)

end

/-- The kinds of node. -/
inductive Kind where
  | root
  | element
  | text
  | comment
  | expression
  | interpolation
  | attribute
  | directive
  deriving Repr, DecidableEq

namespace Kind

/-- The name of a kind in messages. -/
def name : Kind → String
  | .root => "Root"
  | .element => "Element"
  | .text => "Text"
  | .comment => "Comment"
  | .expression => "SimpleExpression"
  | .interpolation => "Interpolation"
  | .attribute => "Attribute"
  | .directive => "Directive"

end Kind

namespace Property

def kind : Property → Kind
  | .attribute .. => .attribute
  | .directive .. => .directive

end Property

namespace Node

def kind : Node → Kind
  | .root .. => .root
  | .element .. => .element
  | .text _ => .text
  | .comment _ => .comment
  | .expression .. => .expression
  | .interpolation _ => .interpolation
  | .property prop => prop.kind

end Node

/-- A template: the attributes of its opening tag and its content. -/
structure Template where
  attrs : List Attr
  children : List Node

end SingleFile.Markup
