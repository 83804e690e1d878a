import SingleFile.Json.Value
import SingleFile.Markup.Path

/-!
# What can be wrong with compiler output

Compiler output is refused for one of five reasons. Two of them concern a place in
a markup tree and carry the path to it, which grows outwards as the error passes
from a part to the whole.
-/

namespace SingleFile.Compiler

open SingleFile.Markup

/-- What is wrong with a value of the right kind. -/
inductive Complaint where
  | notAnObject
  | noType
  | noText (key : String)
  | notAnArray (key : String)
  | noContent
  | notAModifier
  | notAProperty
  | attrValue (name : String) (got : Json.Value)

namespace Complaint

def message : Complaint → String
  | .notAnObject => "expected a node object"
  | .noType => "node without `type`"
  | .noText key => "missing string field `" ++ key ++ "`"
  | .notAnArray key => "`" ++ key ++ "` must be an array"
  | .noContent => "interpolation without content"
  | .notAModifier => "modifier must be a string or an expression"
  | .notAProperty => "element prop must be an attribute or a directive"
  | .attrValue name got =>
    "attribute `" ++ name ++ "` must be a string or `true`, got " ++ got.render

end Complaint

/-- Why compiler output is refused. -/
inductive Error where
  /-- The text is not JSON. -/
  | notJson
  /-- A descriptor, or a part of it, has a field of the wrong type. -/
  | misshapen
  /-- The opening tag in the source of a root cannot be read. -/
  | unreadableTag
  /-- A node is of a kind that markup trees do not have. -/
  | unknownKind (kind : String) (path : TreePath)
  | malformed (complaint : Complaint) (path : TreePath)

namespace Error

/-- The same error seen from one step further out. -/
def under (step : Step) : Error → Error
  | .unknownKind kind path => .unknownKind kind (step :: path)
  | .malformed complaint path => .malformed complaint (step :: path)
  | other => other

def message : Error → String
  | .notJson => "invalid compiler output: not JSON"
  | .misshapen => "invalid compiler output: a field has the wrong type"
  | .unreadableTag => "parse error: expected a complete opening tag"
  | .unknownKind kind path => "unknown node kind `" ++ kind ++ "` at " ++ TreePath.render path
  | .malformed complaint path =>
    "malformed compiler output at " ++ TreePath.render path ++ ": " ++ complaint.message

end Error

/-- A result for a part, as a result for the whole. -/
def within (step : Step) (result : Except Error α) : Except Error α :=
  result.mapError (Error.under step)

end SingleFile.Compiler
