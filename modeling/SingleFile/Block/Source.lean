import SingleFile.Block.Body

/-!
# The blocks of a component's text

A component's text is a sequence of blocks. Comments and stray text between them
are passed over, but what opens a tag must be a complete block: otherwise the text
has no reading at all.
-/

namespace SingleFile.Block

open SingleFile.Text

/-- A block as it stands in the text. -/
inductive Source where
  | template (attrs : List Attr) (body : String)
  | raw (tag : String) (attrs : List Attr) (content : String)
  deriving Repr, DecidableEq

namespace Source

/-- A template block. -/
def template? (text : List Char) : Option (Source × List Char) := do
  let (attrs, body) ← openTemplate? text
  let rest ← closing? templateTag (bodyEnd body)
  return (.template attrs (String.ofList (upTo body (bodyEnd body))), rest)

/-- The tag of a raw block: a letter and tag characters, other than a template's. -/
def rawTag? : List Char → Option (List Char × List Char)
  | '<' :: c :: rest =>
    let tag := (c :: rest).takeWhile isTagChar
    if c.isAlpha && tag != templateTag then some (tag, (c :: rest).dropWhile isTagChar) else none
  | _ => none

/-- A block of raw content, which ends at the first closing tag of the same name. -/
def raw? (text : List Char) : Option (Source × List Char) := do
  let (tag, tail) ← rawTag? text
  let (attrs, body) ← readOpenTail? tail
  let (content, rest) ← cutAt? (closing? tag) body
  return (.raw (String.ofList tag) attrs (String.ofList content), rest)

/-- The block at the start of the text. -/
def read? (text : List Char) : Option (Source × List Char) :=
  template? text <|> raw? text

/-- Whether a tag opens at the start of the text. -/
def opensTag : List Char → Bool
  | '<' :: c :: _ => c.isAlpha
  | _ => false

theorem length_lt_of_template? {text rest : List Char} {block : Source}
    (read : template? text = some (block, rest)) : rest.length < text.length := by
  simp only [template?, openTemplate?, Option.bind_eq_bind, Option.bind_eq_some_iff] at read
  obtain ⟨⟨attrs, body⟩, ⟨tail, begins, ends⟩, after, closes, equal⟩ := read
  cases equal
  have := length_lt_of_templateStart? begins
  have := length_lt_of_readOpenTail? ends
  have := length_bodyEnd_le body
  have := length_lt_of_closing? closes
  dsimp only at *
  omega

theorem length_lt_of_rawTag? {text tag rest : List Char}
    (read : rawTag? text = some (tag, rest)) : rest.length < text.length := by
  unfold rawTag? at read
  split at read
  next c tail =>
    simp only at read
    split at read
    next =>
      cases read
      exact Nat.lt_succ_of_le (length_dropWhile_le _ _)
    next => simp at read
  next => simp at read

theorem length_lt_of_raw? {text rest : List Char} {block : Source}
    (read : raw? text = some (block, rest)) : rest.length < text.length := by
  simp only [raw?, Option.bind_eq_bind, Option.bind_eq_some_iff] at read
  obtain ⟨⟨tag, tail⟩, begins, ⟨attrs, body⟩, ends, ⟨content, after⟩, cut, equal⟩ := read
  cases equal
  have := length_lt_of_rawTag? begins
  have := length_lt_of_readOpenTail? ends
  have := length_le_of_cutAt? (fun closes => Nat.le_of_lt (length_lt_of_closing? closes)) cut
  dsimp only at *
  omega

/-- A block consumes at least one character. -/
theorem length_lt_of_read? {text rest : List Char} {block : Source}
    (read : read? text = some (block, rest)) : rest.length < text.length := by
  simp only [read?, Option.orElse_eq_orElse, Option.orElse_eq_or, Option.or_eq_some_iff] at read
  rcases read with read | ⟨-, read⟩
  · exact length_lt_of_template? read
  · exact length_lt_of_raw? read

/-- All blocks of the text, in order; nothing when what opens a tag is no block, or a
comment does not end. -/
def readAll? : List Char → Option (List Source)
  | [] => some []
  | c :: rest =>
    if opensTag (c :: rest) then
      match _block : read? (c :: rest) with
      | some (block, tail) => (readAll? tail).map (block :: ·)
      | none => none
    else if (after? "<!--".toList (c :: rest)).isSome then
      match _comment : comment? (c :: rest) with
      | some tail => readAll? tail
      | none => none
    else readAll? rest
termination_by text => text.length
decreasing_by
  · exact length_lt_of_read? _block
  · exact length_lt_of_comment? _comment
  · exact Nat.lt_succ_self _

end Source

/-- The attributes of the first opening tag of a template in the text: none when no
such tag begins, and nothing when the first one is not complete. -/
def firstTemplateAttrs? (text : List Char) : Option (List Attr) :=
  match cut? "<template".toList text with
  | none => some []
  | some (_, tail) => ((endOfName? tail).bind readOpenTail?).map Prod.fst

end SingleFile.Block
