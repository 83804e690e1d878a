import SingleFile.Document
import SingleFile.Event
import SingleFile.Markup.Printer

/-!
# Printing a component

Blocks are written without anything between them, in a fixed order: the template,
the script, the setup script, the styles and the custom blocks. Printing fails
exactly where printing the template does.
-/

namespace SingleFile.Document

/-- The blocks after the template as text. -/
def renderBlocks (document : Document) : String :=
  (document.script.map Script.render).getD "" ++
    (document.scriptSetup.map Script.render).getD "" ++
    Style.renderAll document.styles ++
    CustomBlock.renderAll document.customBlocks

/-- The text of the template, if there is one. -/
def renderTemplate (document : Document) : Except Markup.ArgumentError String :=
  match document.template with
  | none => .ok ""
  | some template => template.render

/-- The component as text. -/
def render (document : Document) : Except Markup.ArgumentError String := do
  return (← document.renderTemplate) ++ document.renderBlocks

/-- What is reported when a component has been printed as `text`. -/
def printedEvent (document : Document) (text : String) : Event :=
  .printed document.template.isSome document.script.isSome document.scriptSetup.isSome
    document.styles.length document.customBlocks.length text.utf8ByteSize

/-- The component as text, with the report. A failure is not reported. -/
def renderWithEvents (document : Document) :
    List Event × Except Markup.ArgumentError String :=
  match document.render with
  | .ok text => ([document.printedEvent text], .ok text)
  | .error error => ([], .error error)

end SingleFile.Document
