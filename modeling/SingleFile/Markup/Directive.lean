import SingleFile.Markup.Node
import SingleFile.Text.Scan

/-!
# Names of directives

A directive is written as the name of an attribute: explicitly, `v-on:click.stop`,
or by a shorthand, `@click.stop`. Such a name splits into what the directive is
called, an optional argument and a list of modifiers. The split is defined on
every text.

The argument runs to the first `.`, or to the first `]` when it is bracketed.
What follows it is divided at every `.` into modifiers, and empty ones do not
count: `:a.b:c` has the argument `a` and the modifier `b:c`.
-/

namespace SingleFile.Markup

open SingleFile.Text

/-- The argument of a directive: a plain name, or an expression when it stands in
brackets. -/
structure Argument where
  content : String
  isStatic : Bool
  deriving Repr, DecidableEq

/-- A directive's name in parts. -/
structure DirectiveName where
  name : String
  arg : Option Argument
  modifiers : List String
  deriving Repr, DecidableEq

namespace Argument

/-- The argument at the start of the text after its marker, if there is one. A
bracket that is never closed gives no argument, nor does an empty name. -/
def read? : List Char → Option (Argument × List Char)
  | '[' :: inner =>
    (cut? [']'] inner).map fun (content, rest) => (⟨String.ofList content, false⟩, rest)
  | body =>
    match body.takeWhile (· != '.') with
    | [] => none
    | content => some (⟨String.ofList content, true⟩, body.dropWhile (· != '.'))

/-- The argument as an expression node. -/
def toNode (arg : Argument) : Node := .expression arg.content arg.isStatic

end Argument

namespace DirectiveName

/-- Characters of an explicit directive's name. -/
def isNameChar (c : Char) : Bool := c.isAlphanum || c = '-'

/-- What a shorthand stands for: `@` is `on`, `#` is `slot`, and anything else is
`bind`. -/
def ofShorthand : List Char → String
  | '@' :: _ => "on"
  | '#' :: _ => "slot"
  | _ => "bind"

/-- Whether `c`, the first character after the name, introduces an argument. After
an explicit name only `:` does; where the text begins with a shorthand, the
shorthand itself does. -/
def opensArgument (explicit : Bool) (c : Char) : Bool :=
  c = ':' || (!explicit && (c = '@' || c = '#' || c = '.'))

/-- The argument and what follows it. Without an argument nothing is consumed. -/
def readArgument (explicit : Bool) : List Char → Option Argument × List Char
  | [] => (none, [])
  | c :: body =>
    if opensArgument explicit c then
      match Argument.read? body with
      | some (arg, rest) => (some arg, rest)
      | none => (none, c :: body)
    else (none, c :: body)

/-- The modifiers in the text after the argument. The first character only
separates them from what precedes. -/
def readModifiers (tail : List Char) : List String :=
  (((tail.drop 1).splitOn '.').filter (· ≠ [])).map String.ofList

/-- The name, argument and modifiers that follow an explicit or shorthand name. -/
def ofTail (name : String) (explicit : Bool) (implied : List String) (tail : List Char) :
    DirectiveName :=
  let (arg, rest) := readArgument explicit tail
  ⟨name, arg, implied ++ readModifiers rest⟩

/-- Modifiers that a shorthand implies: a leading `.` binds a property. -/
def impliedModifiers : List Char → List String
  | '.' :: _ => ["prop"]
  | _ => []

/-- Split the written name of a directive. -/
def ofChars (raw : List Char) : DirectiveName :=
  match after? ['v', '-'] raw with
  | some body =>
    ofTail (String.ofList (body.takeWhile isNameChar)) true [] (body.dropWhile isNameChar)
  | none => ofTail (ofShorthand raw) false (impliedModifiers raw) raw

/-- Split the written name of a directive. -/
def ofString (raw : String) : DirectiveName := ofChars raw.toList

/-- The directive with this name and the given expression. -/
def toProperty (name : DirectiveName) (exp : Option Node) : Property :=
  .directive name.name (name.arg.map Argument.toNode) name.modifiers exp

end DirectiveName

end SingleFile.Markup
