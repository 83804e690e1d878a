import SingleFile.Block.Tag

/-!
# Where the content of a template ends

A template may hold further `<template>` elements, so its content is balanced: it
ends at the first closing tag that belongs to none of them. Comments are opaque.
A nested opening tag whose closing tag is missing, and a comment without an end,
are ordinary characters.

Main definition: `bodyEnd`, the text from the end of the content on.
-/

namespace SingleFile.Block

open SingleFile.Text

/-- The tag name that nests. -/
def templateTag : List Char := "template".toList

/-- The text after a character, or after the whole quoted string that it begins. -/
def skipQuoted (c : Char) (rest : List Char) : List Char :=
  if c = '"' || c = '\'' then ((cut? [c] rest).map Prod.snd).getD rest else rest

theorem length_skipQuoted_le (c : Char) (rest : List Char) :
    (skipQuoted c rest).length ≤ rest.length := by
  rw [skipQuoted]
  split
  · cases cut : cut? [c] rest with
    | none => simp
    | some parts => simpa using length_le_of_cut? cut
  · simp

/-- The end of a nested opening tag: whether the tag closes itself, and the text after
it. Quoted strings are opaque. -/
def nestedTagEnd? : List Char → Option (Bool × List Char)
  | [] => none
  | '/' :: '>' :: rest => some (true, rest)
  | '>' :: rest => some (false, rest)
  | c :: rest => nestedTagEnd? (skipQuoted c rest)
termination_by text => text.length
decreasing_by exact Nat.lt_succ_of_le (length_skipQuoted_le c rest)

/-- A nested opening tag: whether it closes itself, and the text after it. -/
def nestedTag? (text : List Char) : Option (Bool × List Char) :=
  (templateStart? text).bind nestedTagEnd?

theorem length_lt_of_nestedTagEnd? {text rest : List Char} {selfClosing : Bool}
    (read : nestedTagEnd? text = some (selfClosing, rest)) : rest.length < text.length := by
  fun_induction nestedTagEnd? text with
  | case1 => simp at read
  | case2 tail =>
      cases read
      simp only [List.length_cons]
      omega
  | case3 tail =>
      cases read
      simp
  | case4 c tail _ _ ih =>
      exact Nat.lt_succ_of_le
        (Nat.le_trans (Nat.le_of_lt (ih read)) (length_skipQuoted_le c tail))

theorem length_lt_of_nestedTag? {text rest : List Char} {selfClosing : Bool}
    (read : nestedTag? text = some (selfClosing, rest)) : rest.length < text.length := by
  simp only [nestedTag?, Option.bind_eq_some_iff] at read
  obtain ⟨tail, begins, ends⟩ := read
  exact Nat.lt_trans (length_lt_of_nestedTagEnd? ends) (length_lt_of_templateStart? begins)

mutual

/-- The text from the end of the content on, with the fact that it is no longer than
the text. -/
def bodyEndWithin (text : List Char) : { rest : List Char // rest.length ≤ text.length } :=
  match _comment : comment? text with
  | some tail =>
    let found := bodyEndWithin tail
    ⟨found.1, Nat.le_trans found.2 (Nat.le_of_lt (length_lt_of_comment? _comment))⟩
  | none =>
    match nestedWithin? text with
    | some tail =>
      let found := bodyEndWithin tail.1
      ⟨found.1, Nat.le_trans found.2 (Nat.le_of_lt tail.2)⟩
    | none =>
      if (closing? templateTag text).isSome then ⟨text, Nat.le_refl _⟩
      else
        match text with
        | [] => ⟨[], Nat.le_refl _⟩
        | _ :: tail =>
          let found := bodyEndWithin tail
          ⟨found.1, Nat.le_succ_of_le found.2⟩
termination_by 2 * text.length + 1
decreasing_by
  · have := length_lt_of_comment? _comment
    omega
  · exact Nat.lt_succ_self _
  · have := tail.2
    omega
  · simp only [List.length_cons]
    omega

/-- The text after a complete nested template, with the fact that it is shorter. -/
def nestedWithin? (text : List Char) : Option { rest : List Char // rest.length < text.length } :=
  match _tag : nestedTag? text with
  | none => none
  | some (true, tail) => some ⟨tail, length_lt_of_nestedTag? _tag⟩
  | some (false, inner) =>
    let found := bodyEndWithin inner
    match closes : closing? templateTag found.1 with
    | none => none
    | some tail =>
      some ⟨tail, Nat.lt_of_lt_of_le (length_lt_of_closing? closes)
        (Nat.le_trans found.2 (Nat.le_of_lt (length_lt_of_nestedTag? _tag)))⟩
termination_by 2 * text.length
decreasing_by
  have := length_lt_of_nestedTag? _tag
  omega

end

/-- The text from the end of a template's content on. It begins with the closing tag,
or is empty when there is none. -/
def bodyEnd (text : List Char) : List Char := (bodyEndWithin text).1

/-- The text after a complete nested template. -/
def nested? (text : List Char) : Option (List Char) := (nestedWithin? text).map Subtype.val

theorem length_bodyEnd_le (text : List Char) : (bodyEnd text).length ≤ text.length :=
  (bodyEndWithin text).2

theorem length_lt_of_nested? {text rest : List Char} (read : nested? text = some rest) :
    rest.length < text.length := by
  obtain ⟨found, -, equal⟩ := Option.map_eq_some_iff.1 read
  cases equal
  exact found.2

/-- The rules by which content is passed over, in their order. -/
theorem bodyEnd_eq (text : List Char) :
    bodyEnd text =
      match comment? text with
      | some tail => bodyEnd tail
      | none =>
        match nested? text with
        | some tail => bodyEnd tail
        | none =>
          if (closing? templateTag text).isSome then text
          else
            match text with
            | [] => []
            | _ :: tail => bodyEnd tail := by
  rw [bodyEnd, bodyEndWithin]
  split
  next tail comment => simp [comment, bodyEnd]
  next comment =>
    simp only [comment, nested?]
    split
    next tail nested => simp [nested, bodyEnd]
    next nested =>
      simp only [nested, Option.map_none]
      split
      · rfl
      · split <;> rfl

/-- A nested template is a tag that closes itself, or one whose content is followed by
a closing tag. -/
theorem nested?_eq (text : List Char) :
    nested? text =
      match nestedTag? text with
      | none => none
      | some (true, tail) => some tail
      | some (false, inner) => closing? templateTag (bodyEnd inner) := by
  rw [nested?, nestedWithin?]
  split
  next tag => simp [tag]
  next tail tag => simp [tag]
  next inner tag =>
    simp only [tag, bodyEnd]
    split
    next closes => simp [closes]
    next tail closes => simp [closes]

end SingleFile.Block
