import SingleFile.Compiler.Node
import SingleFile.Document
import SingleFile.Json.Reader

/-!
# Components from compiler output

A component compiler describes a component by a record with one entry for each
block. The shape of the whole record is checked first; only then are attributes and
markup trees converted, in the order of the blocks.

A record is an object, or an array of the fields in their order. Fields that are
left out have a default, and keys that are not fields do not matter.
-/

namespace SingleFile.Compiler

open SingleFile.Markup SingleFile.Json

/-- A record before its fields are read: by name, or by position. -/
inductive Record where
  | named (members : Members)
  | listed (items : List Value)

namespace Record

/-- A value as a record of at most `size` fields. -/
def ofValue? (size : Nat) : Value → Option Record
  | .object members => some (.named members)
  | .array items => if items.length ≤ size then some (.listed items) else none
  | _ => none

/-- The field with this position and name. -/
def field? (record : Record) (index : Nat) (name : String) : Option Value :=
  match record with
  | .named members => members.get? name
  | .listed items => items[index]?

/-- A field of text, empty by default. -/
def text? (record : Record) (index : Nat) (name : String) : Option String :=
  match record.field? index name with
  | none => some ""
  | some (.string text) => some text
  | some _ => none

/-- A field that is an object, empty by default. -/
def members? (record : Record) (index : Nat) (name : String) : Option Members :=
  match record.field? index name with
  | none => some []
  | some (.object members) => some members
  | some _ => none

/-- A list, empty by default. -/
def list? (record : Record) (index : Nat) (name : String) (decode? : Value → Option α) :
    Option (List α) :=
  match record.field? index name with
  | none => some []
  | some (.array items) => items.mapM decode?
  | some _ => none

/-- A field that may be absent or `null`. -/
def optional? (record : Record) (index : Nat) (name : String) (decode? : Value → Option α) :
    Option (Option α) :=
  match record.field? index name with
  | none | some .null => some none
  | some value => (decode? value).map some

end Record

/-- A value that is a string. -/
def textOf? : Value → Option String
  | .string text => some text
  | _ => none

/-- A value that is a truth value. -/
def boolOf? : Value → Option Bool
  | .bool holds => some holds
  | _ => none

/-- The entry of a template. -/
structure TemplateEntry where
  content : String
  attrs : Members
  ast : Option Value

/-- The entry of any other block. -/
structure BlockEntry where
  type : String
  content : String
  attrs : Members
  lang : Option String
  setup : Option Value
  isScoped : Option Bool

/-- A component's record. -/
structure Descriptor where
  template : Option TemplateEntry
  script : Option BlockEntry
  scriptSetup : Option BlockEntry
  styles : List BlockEntry
  customBlocks : List BlockEntry

namespace TemplateEntry

def ofValue? (value : Value) : Option TemplateEntry := do
  let record ← Record.ofValue? 3 value
  return {
    content := ← record.text? 0 "content"
    attrs := ← record.members? 1 "attrs"
    ast := ← record.optional? 2 "ast" some }

end TemplateEntry

namespace BlockEntry

def ofValue? (value : Value) : Option BlockEntry := do
  let record ← Record.ofValue? 6 value
  return {
    type := ← record.text? 0 "type"
    content := ← record.text? 1 "content"
    attrs := ← record.members? 2 "attrs"
    lang := ← record.optional? 3 "lang" textOf?
    setup := ← record.optional? 4 "setup" some
    isScoped := ← record.optional? 5 "scoped" boolOf? }

end BlockEntry

namespace Descriptor

def ofValue? (value : Value) : Option Descriptor := do
  let record ← Record.ofValue? 5 value
  return {
    template := ← record.optional? 0 "template" TemplateEntry.ofValue?
    script := ← record.optional? 1 "script" BlockEntry.ofValue?
    scriptSetup := ← record.optional? 2 "scriptSetup" BlockEntry.ofValue?
    styles := ← record.list? 3 "styles" BlockEntry.ofValue?
    customBlocks := ← record.list? 4 "customBlocks" BlockEntry.ofValue? }

end Descriptor

/-- An attribute: a string is its value, and `true` stands for one without a value. -/
def readAttr (name : String) : Value → Except Error Attr
  | .string text => .ok ⟨name, some text⟩
  | .bool true => .ok ⟨name, none⟩
  | other => .error (.malformed (.attrValue name other) [])

/-- Attributes in their order. -/
def readAttrs : Members → Except Error (List Attr)
  | [] => .ok []
  | (name, value) :: members => do
    let attr ← readAttr name value
    return attr :: (← readAttrs members)

/-- The content of a template from its tree. The tree is a root, or the template
element itself; any other node is the only content. -/
def readForest (ast : Value) : Except Error (List Node) :=
  match ast with
  | .object members => do
    match ← kindOf members with
    | .root => readChildren members
    | _ =>
      match ← readNode ast with
      | .element tag props children selfClosing =>
        if tag = "template" then return children
        else return [.element tag props children selfClosing]
      | other => return [other]
  | _ => .error (.malformed .notAnObject [])

namespace TemplateEntry

/-- The template of an entry. Without a tree its content is text. -/
def toTemplate (entry : TemplateEntry) : Except Error Template := do
  let attrs ← readAttrs entry.attrs
  match entry.ast with
  | none => return ⟨attrs, [.text entry.content]⟩
  | some ast => return ⟨attrs, ← readForest ast⟩

end TemplateEntry

namespace BlockEntry

/-- Whether a script's entry marks it as a setup script: anything but `false` does. -/
def isSetup (entry : BlockEntry) : Bool :=
  match entry.setup with
  | none | some .null | some (.bool false) => false
  | some _ => true

def toScript (entry : BlockEntry) : Except Error Script :=
  return ⟨entry.lang, entry.isSetup, ← readAttrs entry.attrs, entry.content⟩

def toStyle (entry : BlockEntry) : Except Error Style :=
  return ⟨entry.lang, entry.isScoped.getD false, ← readAttrs entry.attrs, entry.content⟩

def toCustomBlock (entry : BlockEntry) : Except Error CustomBlock :=
  return ⟨entry.type, ← readAttrs entry.attrs, entry.content⟩

end BlockEntry

/-- Convert what is there. -/
def convertOption (convert : α → Except Error β) : Option α → Except Error (Option β)
  | none => .ok none
  | some entry => (convert entry).map some

/-- Convert entries in their order. -/
def convertList (convert : α → Except Error β) : List α → Except Error (List β)
  | [] => .ok []
  | entry :: entries => do
    let converted ← convert entry
    return converted :: (← convertList convert entries)

namespace Descriptor

/-- The component that a record describes. -/
def toDocument (descriptor : Descriptor) : Except Error Document :=
  return {
    template := ← convertOption TemplateEntry.toTemplate descriptor.template
    script := ← convertOption BlockEntry.toScript descriptor.script
    scriptSetup := ← convertOption BlockEntry.toScript descriptor.scriptSetup
    styles := ← convertList BlockEntry.toStyle descriptor.styles
    customBlocks := ← convertList BlockEntry.toCustomBlock descriptor.customBlocks }

end Descriptor

/-- The component that a value describes: the record itself, or an object that holds it
as its descriptor. -/
def readDocument (value : Value) : Except Error Document :=
  match Descriptor.ofValue? ((value.field? "descriptor").getD value) with
  | some descriptor => descriptor.toDocument
  | none => .error .misshapen

/-- The value that a text is. -/
def readValue (text : String) : Except Error Value :=
  match Value.ofText? text with
  | some value => .ok value
  | none => .error .notJson

/-- The component that the text of compiler output describes. -/
def readDocumentText (text : String) : Except Error Document :=
  readValue text >>= readDocument

/-- The node that the text of compiler output describes. -/
def readNodeText (text : String) : Except Error Node :=
  readValue text >>= readNode

end SingleFile.Compiler
