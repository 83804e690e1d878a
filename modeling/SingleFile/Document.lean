import SingleFile.Block
import SingleFile.Markup.Node

/-!
# Components

A component in parts: at most one template, at most one script of each sort, and
any number of styles and custom blocks.
-/

namespace SingleFile

/-- A single-file component. -/
structure Document where
  template : Option Markup.Template
  script : Option Script
  scriptSetup : Option Script
  styles : List Style
  customBlocks : List CustomBlock

namespace Document

/-- The component without any block. -/
def empty : Document := ⟨none, none, none, [], []⟩

end Document

end SingleFile
