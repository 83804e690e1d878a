import SingleFile.Document.Printer
import SingleFile.Document.Reader

/-!
# Formatting a component

To format a component is to read its text and to print what was read.
-/

namespace SingleFile

/-- Why a text cannot be formatted. -/
inductive FormatError where
  | read (error : ReadError)
  | print (error : Markup.ArgumentError)
  deriving Repr, DecidableEq

namespace Document

/-- The canonical text of the component that `source` describes, with the report. -/
def formatWithEvents (source : String) : List Event × Except FormatError String :=
  match readWithEvents source with
  | (events, .error error) => (events, .error (.read error))
  | (events, .ok document) =>
    match document.renderWithEvents with
    | (later, .error error) => (events ++ later, .error (.print error))
    | (later, .ok text) => (events ++ later, .ok text)

/-- The canonical text of the component that `source` describes. -/
def format (source : String) : Except FormatError String := (formatWithEvents source).2

end Document

end SingleFile
