import SingleFile.Block.Source
import SingleFile.Compiler.Error
import SingleFile.Markup.Node

/-!
# Markup trees from compiler output

A template compiler hands over a markup tree as JSON objects with a numeric type.
The types 0 to 7 are the kinds of node of this library; all others, which stand
for results of later compilation, are refused.

Main definition: `readNode`. An error names the first place, in the order in which
the parts of a node are read, where the output is not understood.
-/

namespace SingleFile.Markup.Kind

/-- The compiler's number of a kind. -/
def tag : Kind → Nat
  | .root => 0
  | .element => 1
  | .text => 2
  | .comment => 3
  | .expression => 4
  | .interpolation => 5
  | .attribute => 6
  | .directive => 7

/-- The kind with a number. -/
def ofTag? : Nat → Option Kind
  | 0 => some .root
  | 1 => some .element
  | 2 => some .text
  | 3 => some .comment
  | 4 => some .expression
  | 5 => some .interpolation
  | 6 => some .attribute
  | 7 => some .directive
  | _ => none

end SingleFile.Markup.Kind

namespace SingleFile.Compiler

open SingleFile.Markup SingleFile.Json

/-- The compiler's name of a type that is no kind of node. -/
def foreignType? : Nat → Option String
  | 8 => some "COMPOUND_EXPRESSION"
  | 9 => some "IF"
  | 10 => some "IF_BRANCH"
  | 11 => some "FOR"
  | 12 => some "TEXT_CALL"
  | 13 => some "VNODE_CALL"
  | _ => none

/-- A type that is no kind of node, as it is shown. -/
def foreignTypeText (tag : Nat) : String :=
  match foreignType? tag with
  | some name => toString tag ++ " (" ++ name ++ ")"
  | none => toString tag

/-- The kind of node that a type stands for. Only a number written as a natural one
counts as a type. -/
def kindOfType : Value → Except Error Kind
  | .number number =>
    match number.toNat? with
    | none => .error (.unknownKind number.render [])
    | some tag =>
      match Kind.ofTag? tag with
      | some kind => .ok kind
      | none => .error (.unknownKind (foreignTypeText tag) [])
  | other => .error (.unknownKind other.render [])

/-- The kind of node that an object describes. -/
def kindOf (members : Members) : Except Error Kind :=
  match members.get? "type" with
  | none => .error (.malformed .noType [])
  | some type => kindOfType type

/-- The text of a key that has to be there. -/
def requireText (members : Members) (key : String) : Except Error String :=
  match members.text? key with
  | some text => .ok text
  | none => .error (.malformed (.noText key) [])

/-- The attributes in the opening tag of a root's source, which may be left out. -/
def readRootAttrs (members : Members) : Except Error (List Attr) :=
  match Block.firstTemplateAttrs? ((members.text? "source").getD "").toList with
  | some attrs => .ok attrs
  | none => .error .unreadableTag

/-- A modifier: a string, or an expression whose content it is. -/
def readModifier : Value → Except Error String
  | .string text => .ok text
  | .object members => requireText members "content"
  | _ => .error (.malformed .notAModifier [])

/-- Modifiers; `index` is the position of the first one. -/
def readModifierList (index : Nat) : List Value → Except Error (List String)
  | [] => .ok []
  | value :: values => do
    let modifier ← within (.modifier index) (readModifier value)
    return modifier :: (← readModifierList (index + 1) values)

/-- The modifiers of a directive, which may be left out. -/
def readModifiers (members : Members) : Except Error (List String) :=
  match members.get? "modifiers" with
  | none | some .null => .ok []
  | some (.array values) => readModifierList 0 values
  | some _ => .error (.malformed (.notAnArray "modifiers") [])

mutual

/-- The node that a value describes. -/
def readNode : Value → Except Error Node
  | .object members => do
    match ← kindOf members with
    | .root => return .root (← readRootAttrs members) (← readChildren members)
    | .element =>
      return .element (← requireText members "tag") (← readProps members) (← readChildren members)
        (Members.flag members "isSelfClosing")
    | .text => return .text (← requireText members "content")
    | .comment => return .comment (← requireText members "content")
    | .expression =>
      return .expression (← requireText members "content") (Members.flag members "isStatic")
    | .interpolation => return .interpolation (← readContent members)
    | .attribute => return .property (← readAttribute members)
    | .directive => return .property (← readDirective members)
  | _ => .error (.malformed .notAnObject [])
termination_by value => 2 * sizeOf value
decreasing_by all_goals simp only [Value.object.sizeOf_spec]; omega

/-- The node inside an interpolation. -/
def readContent (members : Members) : Except Error Node :=
  match _found : members.get? "content" with
  | none => .error (.malformed .noContent [])
  | some value => within .content (readNode value)
termination_by 2 * sizeOf members
decreasing_by
  have := Members.sizeOf_lt_of_get? _found
  omega

/-- The children of a node, which may be left out. -/
def readChildren (members : Members) : Except Error (List Node) :=
  match _found : members.get? "children" with
  | none => .ok []
  | some (.array values) => readNodes 0 values
  | some _ => .error (.malformed (.notAnArray "children") [])
termination_by 2 * sizeOf members
decreasing_by
  have := Members.sizeOf_lt_of_get? _found
  simp only [Value.array.sizeOf_spec] at this
  omega

/-- Sibling nodes; `index` is the position of the first one. -/
def readNodes (index : Nat) : List Value → Except Error (List Node)
  | [] => .ok []
  | value :: values => do
    let node ← within (.child index) (readNode value)
    return node :: (← readNodes (index + 1) values)
termination_by values => 2 * sizeOf values
decreasing_by all_goals simp only [List.cons.sizeOf_spec]; omega

/-- The properties of an element, which may be left out. -/
def readProps (members : Members) : Except Error (List Property) :=
  match _found : members.get? "props" with
  | none => .ok []
  | some (.array values) => readPropList 0 values
  | some _ => .error (.malformed (.notAnArray "props") [])
termination_by 2 * sizeOf members
decreasing_by
  have := Members.sizeOf_lt_of_get? _found
  simp only [Value.array.sizeOf_spec] at this
  omega

/-- Properties; `index` is the position of the first one. -/
def readPropList (index : Nat) : List Value → Except Error (List Property)
  | [] => .ok []
  | value :: values => do
    let property ← within (.prop index) (readProp value)
    return property :: (← readPropList (index + 1) values)
termination_by values => 2 * sizeOf values
decreasing_by all_goals simp only [List.cons.sizeOf_spec]; omega

/-- A property of an element. -/
def readProp : Value → Except Error Property
  | .object members => do
    match ← kindOf members with
    | .attribute => readAttribute members
    | .directive => readDirective members
    | _ => .error (.malformed .notAProperty [])
  | _ => .error (.malformed .notAnObject [])
termination_by value => 2 * sizeOf value
decreasing_by all_goals simp only [Value.object.sizeOf_spec]; omega

/-- An attribute. -/
def readAttribute (members : Members) : Except Error Property :=
  return .attribute (← requireText members "name") (← readOptional members "value" .value)
termination_by 2 * sizeOf members + 1
decreasing_by exact Nat.lt_succ_self _

/-- A directive. Its modifiers are looked at first. -/
def readDirective (members : Members) : Except Error Property := do
  let modifiers ← readModifiers members
  return .directive (← requireText members "name") (← readOptional members "arg" .arg) modifiers
    (← readOptional members "exp" .exp)
termination_by 2 * sizeOf members + 1
decreasing_by all_goals exact Nat.lt_succ_self _

/-- The node at a key; `null` is as good as none. -/
def readOptional (members : Members) (key : String) (step : Step) :
    Except Error (Option Node) :=
  match _found : members.get? key with
  | none => .ok none
  | some .null => .ok none
  | some value => (within step (readNode value)).map some
termination_by 2 * sizeOf members
decreasing_by
  have := Members.sizeOf_lt_of_get? _found
  omega

end

end SingleFile.Compiler
