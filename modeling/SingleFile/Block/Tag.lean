import SingleFile.Attr
import SingleFile.Text.Blank
import SingleFile.Text.Scan

/-!
# Tags of top-level blocks

The grammar of the tags that begin and end a top-level block. It is stricter
than that of markup inside a template: attributes are separated by blanks, a
value has both its quotes, and nothing is passed over.
-/

namespace SingleFile.Block

open SingleFile.Text

/-- Characters of a block's tag. -/
def isTagChar (c : Char) : Bool := c.isAlphanum || c = '-' || c = '_'

/-- Characters of an attribute's name. -/
def isNameChar (c : Char) : Bool :=
  !(isBlockBlank c || c = '=' || c = '>' || c = '/' || c = '"' || c = '\'')

/-- Characters of a value that stands without quotes. -/
def isBareChar (c : Char) : Bool :=
  !(isBlockBlank c || c = '>' || c = '"' || c = '\'' || c = '=' || c = '\x60')

/-- A value: everything between two equal quotes, or else a run of bare characters. -/
def readValue? : List Char → Option (List Char × List Char)
  | [] => none
  | c :: rest =>
    if c = '"' || c = '\'' then cut? [c] rest
    else if isBareChar c then
      some ((c :: rest).takeWhile isBareChar, (c :: rest).dropWhile isBareChar)
    else none

/-- An equals sign and a value, with blanks allowed around the sign. -/
def readBinding? (text : List Char) : Option (List Char × List Char) := do
  let rest ← after? ['='] (text.dropWhile isBlockBlank)
  readValue? (rest.dropWhile isBlockBlank)

/-- An attribute: a name, and a value if one follows. -/
def readAttr? (text : List Char) : Option (Attr × List Char) :=
  let name := String.ofList (text.takeWhile isNameChar)
  let rest := text.dropWhile isNameChar
  if text.takeWhile isNameChar = [] then none
  else
    match readBinding? rest with
    | some (value, tail) => some (⟨name, some (String.ofList value)⟩, tail)
    | none => some (⟨name, none⟩, rest)

/-- An attribute with at least one blank before it. -/
def readSpacedAttr? (text : List Char) : Option (Attr × List Char) :=
  match text with
  | [] => none
  | c :: rest => if isBlockBlank c then readAttr? (rest.dropWhile isBlockBlank) else none

theorem length_le_of_readValue? {text value rest : List Char}
    (read : readValue? text = some (value, rest)) : rest.length ≤ text.length := by
  unfold readValue? at read
  split at read
  next => simp at read
  next c tail =>
    split at read
    next => exact Nat.le_succ_of_le (length_le_of_cut? read)
    next =>
      split at read
      next =>
        cases read
        exact length_dropWhile_le _ _
      next => simp at read

theorem length_le_of_readBinding? {text value rest : List Char}
    (read : readBinding? text = some (value, rest)) : rest.length ≤ text.length := by
  simp only [readBinding?, Option.bind_eq_bind, Option.bind_eq_some_iff] at read
  obtain ⟨tail, sign, read⟩ := read
  have outer := length_dropWhile_le isBlockBlank text
  have inner := length_dropWhile_le isBlockBlank tail
  have value := length_le_of_readValue? read
  rw [after?_eq_some_iff.1 sign] at outer
  simp only [List.length_append] at outer
  omega

theorem length_le_of_readAttr? {text rest : List Char} {attr : Attr}
    (read : readAttr? text = some (attr, rest)) : rest.length ≤ text.length := by
  have bound := length_dropWhile_le isNameChar text
  simp only [readAttr?] at read
  split at read
  next => simp at read
  next =>
    split at read
    next found =>
      cases read
      exact Nat.le_trans (length_le_of_readBinding? found) bound
    next =>
      cases read
      exact bound

/-- The blank before an attribute is consumed. -/
theorem length_lt_of_readSpacedAttr? {text rest : List Char} {attr : Attr}
    (read : readSpacedAttr? text = some (attr, rest)) : rest.length < text.length := by
  unfold readSpacedAttr? at read
  split at read
  next => simp at read
  next c tail =>
    split at read
    next =>
      exact Nat.lt_succ_of_le
        (Nat.le_trans (length_le_of_readAttr? read) (length_dropWhile_le isBlockBlank tail))
    next => simp at read

/-- All attributes at the start of the text, as many as there are. -/
def readAttrs (text : List Char) : List Attr × List Char :=
  match _read : readSpacedAttr? text with
  | some (attr, rest) =>
    let tail := readAttrs rest
    (attr :: tail.1, tail.2)
  | none => ([], text)
termination_by text.length
decreasing_by exact length_lt_of_readSpacedAttr? _read

/-- The part of an opening tag after its name: attributes, blanks and `>`. -/
def readOpenTail? (text : List Char) : Option (List Attr × List Char) :=
  let attrs := readAttrs text
  (after? ['>'] (attrs.2.dropWhile isBlockBlank)).map fun rest => (attrs.1, rest)

/-- What follows a name when it is not continued by another tag character. -/
def endOfName? (text : List Char) : Option (List Char) :=
  match text with
  | [] => some []
  | c :: rest => if isTagChar c then none else some (c :: rest)

/-- What follows the beginning of a template's opening tag. -/
def templateStart? (text : List Char) : Option (List Char) :=
  (after? "<template".toList text).bind endOfName?

/-- The opening tag of a template: its attributes and the text after it. -/
def openTemplate? (text : List Char) : Option (List Attr × List Char) :=
  (templateStart? text).bind readOpenTail?

/-- The closing tag with this name at the start of the text: what follows it. -/
def closing? (tag text : List Char) : Option (List Char) := do
  let rest ← after? ('<' :: '/' :: tag) text
  after? ['>'] (rest.dropWhile isBlockBlank)

/-- A comment at the start of the text: what follows it. -/
def comment? (text : List Char) : Option (List Char) :=
  ((after? "<!--".toList text).bind (cut? "-->".toList)).map Prod.snd

theorem length_lt_of_comment? {text rest : List Char} (read : comment? text = some rest) :
    rest.length < text.length := by
  simp only [comment?, Option.map_eq_some_iff, Option.bind_eq_some_iff] at read
  obtain ⟨⟨content, tail⟩, ⟨body, begins, cut⟩, equal⟩ := read
  cases equal
  have total := congrArg List.length (after?_eq_some_iff.1 begins)
  have bound := length_le_of_cut? cut
  have mark : "<!--".toList.length = 4 := rfl
  simp only [List.length_append] at total ⊢
  omega

theorem length_lt_of_closing? {tag text rest : List Char} (read : closing? tag text = some rest) :
    rest.length < text.length := by
  simp only [closing?, Option.bind_eq_bind, Option.bind_eq_some_iff] at read
  obtain ⟨tail, begins, ends⟩ := read
  have total := congrArg List.length (after?_eq_some_iff.1 begins)
  have bound := length_dropWhile_le isBlockBlank tail
  rw [after?_eq_some_iff.1 ends] at bound
  simp only [List.length_append, List.length_cons] at total bound
  omega

theorem length_lt_of_templateStart? {text rest : List Char}
    (read : templateStart? text = some rest) : rest.length < text.length := by
  simp only [templateStart?, Option.bind_eq_some_iff] at read
  obtain ⟨tail, begins, ends⟩ := read
  have total := congrArg List.length (after?_eq_some_iff.1 begins)
  have mark : "<template".toList.length = 9 := rfl
  have same : rest = tail := by
    unfold endOfName? at ends
    split at ends
    · simpa using ends.symm
    · split at ends
      · simp at ends
      · simpa using ends.symm
  simp only [List.length_append] at total
  subst same
  omega

theorem length_readAttrs_le (text : List Char) : (readAttrs text).2.length ≤ text.length := by
  fun_induction readAttrs text with
  | case1 text attr rest read _ ih =>
      exact Nat.le_trans ih (Nat.le_of_lt (length_lt_of_readSpacedAttr? read))
  | case2 => simp

theorem length_lt_of_readOpenTail? {text rest : List Char} {attrs : List Attr}
    (read : readOpenTail? text = some (attrs, rest)) : rest.length < text.length := by
  simp only [readOpenTail?, Option.map_eq_some_iff] at read
  obtain ⟨tail, ends, equal⟩ := read
  cases equal
  have outer := length_readAttrs_le text
  have inner := length_dropWhile_le isBlockBlank (readAttrs text).2
  rw [after?_eq_some_iff.1 ends] at inner
  simp only [List.length_append, List.length_cons] at inner
  omega

end SingleFile.Block
