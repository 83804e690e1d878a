/-!
# Positions in a markup tree

A path names a node by the steps that lead to it from the root. Errors carry
one, and its rendering is the form in which a reader of the message sees it.
-/

namespace SingleFile.Markup

/-- One step from a node to a part of it. -/
inductive Step where
  | child (index : Nat)
  | prop (index : Nat)
  | value
  | content
  | arg
  | exp
  | modifier (index : Nat)
  deriving Repr, DecidableEq

/-- The steps from the root to a node, outermost first. -/
abbrev TreePath := List Step

namespace Step

def render : Step → String
  | .child index => ".children[" ++ toString index ++ "]"
  | .prop index => ".props[" ++ toString index ++ "]"
  | .value => ".value"
  | .content => ".content"
  | .arg => ".arg"
  | .exp => ".exp"
  | .modifier index => ".modifiers[" ++ toString index ++ "]"

/-- The steps one after the other. -/
def renderAll : List Step → String
  | [] => ""
  | step :: steps => step.render ++ renderAll steps

end Step

namespace TreePath

/-- A path as it is shown: the root is `$`, and every step follows in order. -/
def render (path : TreePath) : String := "$" ++ Step.renderAll path

end TreePath

end SingleFile.Markup
