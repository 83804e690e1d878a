import SingleFile.Markup.Token

/-!
# From tokens to trees

A forest is built by going through the tokens once, with a cursor that knows the
siblings read so far at the current level and the elements that are still open
around it. Every token is accepted: an element that is never closed ends with the
text, and a closing tag that no open element has is dropped.

Main definitions: `Cursor.step` takes one token in, and `Forest.read` gives the
forest of a text.
-/

namespace SingleFile.Markup

/-- Elements that have no content, even where the tag does not close itself. -/
def voidTags : List String :=
  ["area", "base", "br", "col", "embed", "hr", "img", "input", "link", "meta", "param", "source",
    "track", "wbr"]

/-- An element that is still open, with the siblings before it, latest first. -/
structure Enclosing where
  tag : String
  props : List Property
  earlier : List Node

/-- A place in a forest under construction: the siblings read so far at the current
level, latest first, and the open elements around it, innermost first. -/
structure Cursor where
  siblings : List Node
  enclosing : List Enclosing

/-- Siblings, latest first, with one more. Text that follows text continues it. -/
def attach : Node → List Node → List Node
  | .text content, .text before :: siblings => .text (before ++ content) :: siblings
  | node, siblings => node :: siblings

namespace Enclosing

/-- The level around an element once it is closed, given its content, latest first. -/
def close (element : Enclosing) (content : List Node) : List Node :=
  attach (.element element.tag element.props content.reverse false) element.earlier

end Enclosing

namespace Cursor

/-- The start of a forest. -/
def start : Cursor := ⟨[], []⟩

/-- Add a node at the current level. -/
def add (cursor : Cursor) (node : Node) : Cursor :=
  { cursor with siblings := attach node cursor.siblings }

/-- Open an element: its content becomes the current level. -/
def descend (cursor : Cursor) (tag : String) (props : List Property) : Cursor :=
  ⟨[], ⟨tag, props, cursor.siblings⟩ :: cursor.enclosing⟩

/-- Close the open elements up to and including the innermost one with this tag. -/
def closeThrough (tag : String) (siblings : List Node) : List Enclosing → Cursor
  | [] => ⟨siblings, []⟩
  | element :: enclosing =>
    if element.tag = tag then ⟨element.close siblings, enclosing⟩
    else closeThrough tag (element.close siblings) enclosing

/-- A closing tag. When no open element has this tag, it changes nothing. -/
def ascend (cursor : Cursor) (tag : String) : Cursor :=
  if cursor.enclosing.any (·.tag = tag) then closeThrough tag cursor.siblings cursor.enclosing
  else cursor

/-- Take in one token. -/
def step (cursor : Cursor) : Token → Cursor
  | .comment content => cursor.add (.comment content)
  | .closeTag tag => cursor.ascend tag
  | .openTag tag props selfClosing =>
    if selfClosing || voidTags.contains tag then cursor.add (.element tag props [] selfClosing)
    else cursor.descend tag props
  | .interpolation content => cursor.add (.interpolation (.expression content false))
  | .text content => cursor.add (.text content)

/-- The roots, latest first, once everything still open is closed. -/
def closeAll (siblings : List Node) : List Enclosing → List Node
  | [] => siblings
  | element :: enclosing => closeAll (element.close siblings) enclosing

/-- The forest once the text ends. -/
def finish (cursor : Cursor) : List Node :=
  (closeAll cursor.siblings cursor.enclosing).reverse

end Cursor

namespace Forest

/-- The forest of a sequence of tokens. -/
def ofTokens (tokens : List Token) : List Node :=
  (tokens.foldl Cursor.step Cursor.start).finish

/-- The forest that template text describes. -/
def read (text : String) : List Node := ofTokens (Token.scan text.toList)

end Forest

end SingleFile.Markup
