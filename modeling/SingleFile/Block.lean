import SingleFile.Attr

/-!
# Top-level blocks with raw content

Beside its template a component has scripts, styles and custom blocks, whose
content is kept as it is. Scripts and styles know two of their attributes by
meaning: the language, and a flag (`setup` or `scoped`). When such a block is
written these come first, and the other attributes follow in their order.
-/

namespace SingleFile

/-- A `<script>` block. -/
structure Script where
  lang : Option String
  isSetup : Bool
  attrs : List Attr
  content : String
  deriving Repr, DecidableEq

/-- A `<style>` block. -/
structure Style where
  lang : Option String
  isScoped : Bool
  attrs : List Attr
  content : String
  deriving Repr, DecidableEq

/-- A block of any other type; the type is its tag. -/
structure CustomBlock where
  type : String
  attrs : List Attr
  content : String
  deriving Repr, DecidableEq

namespace Attr

/-- The value of the first attribute with this name. -/
def valueOf? (name : String) (attrs : List Attr) : Option String :=
  (attrs.find? (·.name = name)).bind Attr.value

/-- Whether an attribute with this name is there, with or without a value. -/
def has (name : String) (attrs : List Attr) : Bool :=
  attrs.any (·.name = name)

/-- The attributes of a block with a language and a flag, in the order in which they
are written: the language, the flag, then all others. -/
def arrange (lang : Option String) (flag : String) (flagged : Bool) (attrs : List Attr) :
    List Attr :=
  (lang.map fun lang => ⟨"lang", some lang⟩).toList ++
    (if flagged then [⟨flag, none⟩] else []) ++
    attrs.filter fun attr => attr.name ≠ "lang" && attr.name ≠ flag

end Attr

namespace Block

/-- A block as text: its content between an opening and a closing tag. -/
def wrap (tag : String) (attrs : List Attr) (content : String) : String :=
  "<" ++ tag ++ Attr.renderAll attrs ++ ">" ++ content ++ "</" ++ tag ++ ">"

end Block

namespace Script

/-- The script with the attributes of an opening tag. -/
def ofAttrs (attrs : List Attr) (content : String) : Script :=
  ⟨Attr.valueOf? "lang" attrs, Attr.has "setup" attrs, attrs, content⟩

/-- The attributes as they are written. -/
def writtenAttrs (script : Script) : List Attr :=
  Attr.arrange script.lang "setup" script.isSetup script.attrs

def render (script : Script) : String :=
  Block.wrap "script" script.writtenAttrs script.content

end Script

namespace Style

/-- The style with the attributes of an opening tag. -/
def ofAttrs (attrs : List Attr) (content : String) : Style :=
  ⟨Attr.valueOf? "lang" attrs, Attr.has "scoped" attrs, attrs, content⟩

/-- The attributes as they are written. -/
def writtenAttrs (style : Style) : List Attr :=
  Attr.arrange style.lang "scoped" style.isScoped style.attrs

def render (style : Style) : String :=
  Block.wrap "style" style.writtenAttrs style.content

/-- Styles one after the other. -/
def renderAll : List Style → String
  | [] => ""
  | style :: styles => style.render ++ renderAll styles

end Style

namespace CustomBlock

def render (block : CustomBlock) : String :=
  Block.wrap block.type block.attrs block.content

/-- Custom blocks one after the other. -/
def renderAll : List CustomBlock → String
  | [] => ""
  | block :: blocks => block.render ++ renderAll blocks

end CustomBlock

end SingleFile
