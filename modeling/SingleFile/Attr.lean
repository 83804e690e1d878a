/-!
# Attributes of top-level blocks

The attributes of a `<template>`, `<script>`, `<style>` or custom block are names
with an optional value. An attribute without a value differs from one whose
value is empty.
-/

namespace SingleFile

/-- An attribute of a top-level block. -/
structure Attr where
  name : String
  value : Option String
  deriving Repr, DecidableEq, Inhabited

namespace Attr

/-- An attribute as it is written in an opening tag, with the space before it. -/
def render (attr : Attr) : String :=
  match attr.value with
  | none => " " ++ attr.name
  | some value => " " ++ attr.name ++ "=\"" ++ value ++ "\""

/-- Attributes one after the other, each with its leading space. -/
def renderAll : List Attr → String
  | [] => ""
  | attr :: attrs => attr.render ++ renderAll attrs

end Attr

end SingleFile
