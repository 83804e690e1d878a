import SingleFile.Markup.Directive
import SingleFile.Text.Blank

/-!
# Tokens of template text

Template text is read as a sequence of tokens: comments, closing tags, opening
tags with their properties, interpolations and runs of text. Reading never fails:
what begins no markup is text, and a construct that is not finished ends with the
text.

Main definitions: `Token.next` reads the token at the start of a non-empty text,
and `Token.scan` lists all of them.
-/

namespace SingleFile.Markup

open SingleFile.Text

/-- A piece of template text. -/
inductive Token where
  | comment (content : String)
  | closeTag (tag : String)
  | openTag (tag : String) (props : List Property) (selfClosing : Bool)
  | interpolation (content : String)
  | text (content : String)

/-- Characters of a tag's name. -/
def isTagChar (c : Char) : Bool :=
  c.isAlphanum || c = '_' || c = '-' || c = '.' || c = ':'

/-- The marks around an interpolation. -/
def openBraces : List Char := ['\x7b', '\x7b']

@[inherit_doc openBraces]
def closeBraces : List Char := ['\x7d', '\x7d']

namespace Property

/-- Whether `c` ends a property's name outside brackets; `rest` follows it. -/
def endsName (c : Char) (rest : List Char) : Bool :=
  c = '=' || c = '>' || c = '"' || c = '\'' || (c = '/' && rest.head? = some '>') || isTagBlank c

/-- The name at the start of the text. Between brackets, which enclose a dynamic
argument, every character belongs to the name. -/
def readName (bracketed : Bool) : List Char → List Char × List Char
  | [] => ([], [])
  | c :: rest =>
    if !bracketed && endsName c rest then ([], c :: rest)
    else
      let tail := readName (if c = '[' then true else if c = ']' then false else bracketed) rest
      (c :: tail.1, tail.2)

/-- The value at the start of the text: quoted, up to the same quote, or else up to
a blank or `>`. -/
def readValue : List Char → List Char × List Char
  | [] => ([], [])
  | c :: rest =>
    if c = '"' || c = '\'' then
      (rest.takeWhile (· != c), (rest.dropWhile (· != c)).drop 1)
    else
      let inValue d := !isTagBlank d && d != '>'
      ((c :: rest).takeWhile inValue, (c :: rest).dropWhile inValue)

/-- The value after a name, when an equals sign follows, with blanks around it. -/
def readBinding (text : List Char) : Option (List Char) × List Char :=
  match text.dropWhile isTagBlank with
  | '=' :: rest =>
    let value := readValue (rest.dropWhile isTagBlank)
    (some value.1, value.2)
  | _ => (none, text)

/-- Whether a name is that of a directive: a shorthand, or `v-` before a letter, a
digit or `-`. -/
def isDirective : List Char → Bool
  | ':' :: _ | '.' :: _ | '@' :: _ | '#' :: _ => true
  | 'v' :: '-' :: c :: _ => DirectiveName.isNameChar c
  | _ => false

/-- The property with a written name and value. A directive with an empty value is
one without an expression. -/
def ofWritten (name : List Char) (value : Option (List Char)) : Property :=
  if isDirective name then
    (DirectiveName.ofChars name).toProperty <|
      (value.filter (· ≠ [])).map fun value => .expression (String.ofList value) false
  else
    .attribute (String.ofList name) (value.map fun value => .text (String.ofList value))

/-- The property at the start of the text, if a name stands there. -/
def read? (text : List Char) : Option (Property × List Char) :=
  let name := readName false text
  let binding := readBinding name.2
  if name.1 = [] then none else some (ofWritten name.1 binding.1, binding.2)

theorem length_readName_le (bracketed : Bool) (text : List Char) :
    (readName bracketed text).2.length ≤ text.length := by
  induction text generalizing bracketed with
  | nil => simp [readName]
  | cons c rest ih =>
      rw [readName]
      split
      · simp
      · exact Nat.le_succ_of_le (ih _)

/-- A name that is not empty is consumed. -/
theorem length_readName_lt {bracketed : Bool} {text : List Char}
    (named : (readName bracketed text).1 ≠ []) :
    (readName bracketed text).2.length < text.length := by
  cases text with
  | nil => simp [readName] at named
  | cons c rest =>
      rw [readName] at named ⊢
      split
      next stops => simp [stops] at named
      next => exact Nat.lt_succ_of_le (length_readName_le _ rest)

theorem length_readValue_le (text : List Char) :
    (readValue text).2.length ≤ text.length := by
  cases text with
  | nil => simp [readValue]
  | cons c rest =>
      rw [readValue]
      split
      · have := length_dropWhile_le (· != c) rest
        simp only [List.length_drop, List.length_cons]
        omega
      · exact length_dropWhile_le _ _

theorem length_readBinding_le (text : List Char) :
    (readBinding text).2.length ≤ text.length := by
  rw [readBinding]
  split
  next rest equal =>
    have dropped := length_dropWhile_le isTagBlank text
    have inner := length_dropWhile_le isTagBlank rest
    have value := length_readValue_le (rest.dropWhile isTagBlank)
    simp only [equal, List.length_cons] at dropped
    simp only
    omega
  next => simp

/-- Reading a property consumes at least its name. -/
theorem length_lt_of_read? {text rest : List Char} {property : Property}
    (read : read? text = some (property, rest)) : rest.length < text.length := by
  simp only [read?] at read
  split at read
  next => simp at read
  next named =>
    cases read
    exact Nat.lt_of_le_of_lt (length_readBinding_le _) (length_readName_lt named)

end Property

/-- What stands next in an opening tag. -/
inductive TagPart where
  | finish (selfClosing : Bool)
  | property (prop : Property)
  | noise

namespace TagPart

/-- The next part of an opening tag, past blanks. A `/` that does not close the tag is
noise, and so is a character that begins no property. -/
def next (text : List Char) : TagPart × List Char :=
  match text.dropWhile isTagBlank with
  | [] => (.finish false, [])
  | '/' :: '>' :: rest => (.finish true, rest)
  | '>' :: rest => (.finish false, rest)
  | '/' :: rest => (.noise, rest)
  | c :: rest =>
    match Property.read? (c :: rest) with
    | some (prop, tail) => (.property prop, tail)
    | none => (.noise, rest)

theorem length_next_le (text : List Char) : (next text).2.length ≤ text.length := by
  have bound := length_dropWhile_le isTagBlank text
  rw [next]
  split <;> rename_i shape <;> simp only [shape, List.length_cons] at bound
  · simp
  · simp only; omega
  · simp only; omega
  · simp only; omega
  · split
    next read =>
      have := Property.length_lt_of_read? read
      simp only [List.length_cons] at this ⊢
      omega
    next => simp only; omega

/-- Every part but the end of a tag consumes something. -/
theorem length_next_lt {text rest : List Char} {part : TagPart}
    (read : next text = (part, rest)) (goesOn : ∀ selfClosing, part ≠ .finish selfClosing) :
    rest.length < text.length := by
  have bound := length_dropWhile_le isTagBlank text
  rw [next] at read
  split at read <;> rename_i shape <;> simp only [shape, List.length_cons] at bound
  · cases read
    simp at goesOn
  · cases read
    simp at goesOn
  · cases read
    simp at goesOn
  · cases read
    omega
  · split at read
    next found =>
      cases read
      have := Property.length_lt_of_read? found
      simp only [List.length_cons] at this
      omega
    next =>
      cases read
      omega

end TagPart

/-- What follows the name in an opening tag: the properties, whether the tag closes
itself, and the text after the tag. -/
structure TagTail where
  props : List Property
  selfClosing : Bool
  rest : List Char

namespace TagTail

/-- Read the rest of an opening tag. -/
def read (text : List Char) : TagTail :=
  match _read : TagPart.next text with
  | (.finish selfClosing, rest) => ⟨[], selfClosing, rest⟩
  | (.property prop, rest) =>
    let tail := read rest
    { tail with props := prop :: tail.props }
  | (.noise, rest) => read rest
termination_by text.length
decreasing_by all_goals exact TagPart.length_next_lt _read (by simp)

theorem length_read_le (text : List Char) : (read text).rest.length ≤ text.length := by
  fun_induction read text with
  | case1 text selfClosing rest part =>
      have := TagPart.length_next_le text
      simpa [part] using this
  | case2 text prop rest part _ ih | case3 text rest part ih =>
      have := TagPart.length_next_le text
      simp only [part] at this
      exact Nat.le_trans ih this

end TagTail

namespace Token

/-- A comment; without an end mark it takes the whole text. -/
def comment? (text : List Char) : Option (Token × List Char) :=
  (after? "<!--".toList text).map fun body =>
    match cut? "-->".toList body with
    | some (content, rest) => (.comment (String.ofList content), rest)
    | none => (.comment (String.ofList body), [])

/-- A closing tag. Between its name and the next `>` anything may stand. -/
def closeTag? : List Char → Option (Token × List Char)
  | '<' :: '/' :: body =>
    match body.takeWhile isTagChar with
    | [] => none
    | tag =>
      let rest := (body.dropWhile isTagChar).dropWhile (· != '>')
      some (.closeTag (String.ofList tag), rest.drop 1)
  | _ => none

/-- An opening tag: `<` directly before a letter. -/
def openTag? : List Char → Option (Token × List Char)
  | '<' :: c :: body =>
    if c.isAlpha then
      let tail := TagTail.read ((c :: body).dropWhile isTagChar)
      some (.openTag (String.ofList ((c :: body).takeWhile isTagChar)) tail.props tail.selfClosing,
        tail.rest)
    else none
  | _ => none

/-- An interpolation; its expression is trimmed. -/
def interpolation? (text : List Char) : Option (Token × List Char) := do
  let (content, rest) ← cut? closeBraces (← after? openBraces text)
  return (.interpolation (String.ofList (trim content)), rest)

/-- Whether markup begins at the start of the text, which ends a run of text. -/
def startsMarkup : List Char → Bool
  | '<' :: '!' :: '-' :: '-' :: _ => true
  | '<' :: '/' :: c :: _ => c.isAlpha
  | '<' :: c :: _ => c.isAlpha
  | '\x7b' :: '\x7b' :: rest => (cut? closeBraces rest).isSome
  | _ => false

/-- The characters up to the next place where markup begins. -/
def textRun : List Char → List Char × List Char
  | [] => ([], [])
  | c :: rest =>
    if startsMarkup (c :: rest) then ([], c :: rest)
    else
      let tail := textRun rest
      (c :: tail.1, tail.2)

/-- The markup construct at the start of the text. -/
def markup? (text : List Char) : Option (Token × List Char) :=
  comment? text <|> closeTag? text <|> openTag? text <|> interpolation? text

/-- The token at the start of the text `c :: rest` and the text after it. Where no
markup is recognised, `c` is text in any case. -/
def next (c : Char) (rest : List Char) : Token × List Char :=
  match markup? (c :: rest) with
  | some found => found
  | none =>
    let tail := textRun rest
    (.text (String.ofList (c :: tail.1)), tail.2)

theorem length_lt_of_comment? {text rest : List Char} {token : Token}
    (read : comment? text = some (token, rest)) : rest.length < text.length := by
  obtain ⟨body, begins, equal⟩ := Option.map_eq_some_iff.1 read
  have := congrArg List.length (after?_eq_some_iff.1 begins)
  simp only [List.length_append] at this
  have marked : "<!--".toList.length = 4 := rfl
  split at equal
  next cut =>
    cases equal
    have := length_le_of_cut? cut
    omega
  next =>
    cases equal
    simp only [List.length_nil]
    omega

theorem length_lt_of_closeTag? {text rest : List Char} {token : Token}
    (read : closeTag? text = some (token, rest)) : rest.length < text.length := by
  unfold closeTag? at read
  split at read
  next body =>
    split at read
    next => simp at read
    next =>
      cases read
      have outer := length_dropWhile_le isTagChar body
      have inner := length_dropWhile_le (· != '>') (body.dropWhile isTagChar)
      simp only [List.length_drop, List.length_cons]
      omega
  next => simp at read

theorem length_lt_of_openTag? {text rest : List Char} {token : Token}
    (read : openTag? text = some (token, rest)) : rest.length < text.length := by
  unfold openTag? at read
  split at read
  next c body =>
    split at read
    next =>
      cases read
      have outer := length_dropWhile_le isTagChar (c :: body)
      have inner := TagTail.length_read_le ((c :: body).dropWhile isTagChar)
      simp only [List.length_cons] at outer ⊢
      omega
    next => simp at read
  next => simp at read

theorem length_lt_of_interpolation? {text rest : List Char} {token : Token}
    (read : interpolation? text = some (token, rest)) : rest.length < text.length := by
  simp only [interpolation?, Option.bind_eq_bind, Option.bind_eq_some_iff] at read
  obtain ⟨body, begins, ⟨content, tail⟩, cut, equal⟩ := read
  cases equal
  have := congrArg List.length (after?_eq_some_iff.1 begins)
  have := length_le_of_cut? cut
  simp only [List.length_append, openBraces, List.length_cons] at *
  omega

theorem length_textRun_le (text : List Char) : (textRun text).2.length ≤ text.length := by
  induction text with
  | nil => simp [textRun]
  | cons c rest ih =>
      rw [textRun]
      split
      · simp
      · exact Nat.le_succ_of_le ih

theorem length_lt_of_markup? {text rest : List Char} {token : Token}
    (read : markup? text = some (token, rest)) : rest.length < text.length := by
  simp only [markup?, Option.orElse_eq_orElse, Option.orElse_eq_or, Option.or_eq_some_iff] at read
  rcases read with read | ⟨-, read | ⟨-, read | ⟨-, read⟩⟩⟩
  · exact length_lt_of_comment? read
  · exact length_lt_of_closeTag? read
  · exact length_lt_of_openTag? read
  · exact length_lt_of_interpolation? read

/-- Every token consumes at least one character. -/
theorem length_next_lt (c : Char) (rest : List Char) :
    (next c rest).2.length < (c :: rest).length := by
  rw [next]
  split
  next found read => exact length_lt_of_markup? read
  next => exact Nat.lt_succ_of_le (length_textRun_le rest)

/-- All tokens of the text, in order. -/
def scan : List Char → List Token
  | [] => []
  | c :: rest =>
    let found := next c rest
    found.1 :: scan found.2
termination_by text => text.length
decreasing_by exact length_next_lt c rest

end Token

end SingleFile.Markup
