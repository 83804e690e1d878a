import SingleFile.Block.Source
import SingleFile.Document
import SingleFile.Event
import SingleFile.Markup.Forest

/-!
# Reading a component

The text is first divided into blocks as a whole; then the blocks are taken in one
after the other, in their order. Each is reported when it is taken in, so the report
of a component that has a block too many ends at that block.
-/

namespace SingleFile

/-- The blocks that a component has at most once. -/
inductive Slot where
  | template
  | script
  | scriptSetup
  deriving Repr, DecidableEq

namespace Slot

/-- The opening tag that a slot is known by. -/
def tag : Slot → String
  | .template => "<template>"
  | .script => "<script>"
  | .scriptSetup => "<script setup>"

end Slot

/-- Why a text is not a component. -/
inductive ReadError where
  /-- The text does not divide into blocks. -/
  | unreadable
  /-- A block that may stand once stands twice. -/
  | duplicate (slot : Slot)
  deriving Repr, DecidableEq

namespace ReadError

def message : ReadError → String
  | .unreadable => "parse error: expected a complete block"
  | .duplicate slot => "single file component can contain only one " ++ slot.tag ++ " block"

end ReadError

namespace Document

/-- Take in a script, in the slot that its flag chooses. -/
def addScript (document : Document) (script : Script) : Except ReadError Document :=
  if script.isSetup then
    if document.scriptSetup.isSome then .error (.duplicate .scriptSetup)
    else .ok { document with scriptSetup := some script }
  else
    if document.script.isSome then .error (.duplicate .script)
    else .ok { document with script := some script }

/-- Take in a block of raw content; its tag says what it is. -/
def addRaw (document : Document) (tag : String) (attrs : List Attr) (content : String) :
    Except ReadError Document :=
  if tag = "script" then document.addScript (Script.ofAttrs attrs content)
  else if tag = "style" then
    .ok { document with styles := document.styles ++ [Style.ofAttrs attrs content] }
  else
    .ok { document with customBlocks := document.customBlocks ++ [⟨tag, attrs, content⟩] }

/-- Take in a block, with what is reported about it. A second template is refused
before it is reported, a second script after. -/
def add (document : Document) : Block.Source → List Event × Except ReadError Document
  | .template attrs body =>
    if document.template.isSome then ([], .error (.duplicate .template))
    else
      ([.templateRead attrs.length body.utf8ByteSize],
        .ok { document with template := some ⟨attrs, Markup.Forest.read body⟩ })
  | .raw tag attrs content =>
    ([.blockRead tag attrs.length content.utf8ByteSize], document.addRaw tag attrs content)

/-- Take in blocks one after the other, up to the first that is refused. -/
def addAll (document : Document) : List Block.Source → List Event × Except ReadError Document
  | [] => ([], .ok document)
  | block :: blocks =>
    match document.add block with
    | (events, .error error) => (events, .error error)
    | (events, .ok grown) =>
      let tail := grown.addAll blocks
      (events ++ tail.1, tail.2)

/-- Read a component, with the report of its blocks. -/
def readWithEvents (source : String) : List Event × Except ReadError Document :=
  match Block.Source.readAll? source.toList with
  | none => ([], .error .unreadable)
  | some blocks => empty.addAll blocks

/-- Read a component. -/
def read (source : String) : Except ReadError Document := (readWithEvents source).2

end Document

/-- The attributes of the first template's opening tag in a text. -/
def readTemplateAttrs (source : String) : Except ReadError (List Attr) :=
  match Block.firstTemplateAttrs? source.toList with
  | some attrs => .ok attrs
  | none => .error .unreadable

end SingleFile
