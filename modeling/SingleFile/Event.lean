/-!
# Events

What reading, printing and formatting report about their work, in order. Sizes
are those of the text's UTF-8 form.
-/

namespace SingleFile

/-- Something that reading, printing or formatting reports. -/
inductive Event where
  | templateRead (attrs bytes : Nat)
  | blockRead (tag : String) (attrs bytes : Nat)
  | printed (template script scriptSetup : Bool) (styles customBlocks bytes : Nat)
  | formatted (path : String) (changed : Bool)
  deriving Repr, DecidableEq

namespace Event

/-- The word for a truth value in a report. -/
def word (holds : Bool) : String := if holds then "true" else "false"

/-- An event as a line of a log, after its level. -/
def render : Event → String
  | .templateRead attrs bytes =>
    "TRACE template block: " ++ toString attrs ++ " attrs, " ++ toString bytes ++ " bytes"
  | .blockRead tag attrs bytes =>
    "TRACE <" ++ tag ++ "> block: " ++ toString attrs ++ " attrs, " ++ toString bytes ++ " bytes"
  | .printed template script scriptSetup styles customBlocks bytes =>
    "DEBUG stringified SFC: template=" ++ word template ++ " script=" ++ word script ++
      " setup=" ++ word scriptSetup ++ " styles=" ++ toString styles ++
      " custom=" ++ toString customBlocks ++ " (" ++ toString bytes ++ " bytes)"
  | .formatted path changed => "DEBUG " ++ path ++ ": changed=" ++ word changed

end Event

end SingleFile
