import SingleFile.Markup.Forest
import SingleFile.Proofs.Text.Bytes

/-!
# Scanning template text by offset

The scanner of this module goes through the UTF-8 bytes of a template with an offset. It
moves by single bytes over what it skips and takes slices of the text for what it keeps.
Nothing in it says that an offset is in range or not inside a character, and its two
loops, over the constructs of the text and over the parts of an opening tag, go on until
they are at their end: a slice that cannot be taken, or a loop that takes more rounds than
the text has bytes and one, leaves it without a result.

Main definitions: `next?` is one round of the loop over the text and `tagPart?` one of the
loop over a tag; `Head` and `TagHead` are the offsets at which such rounds begin; `read?`
gives the forest.
-/

namespace SingleFile.Markup.ByteScan

open SingleFile.Text

/-! ## Names of directives -/

/-- How many bytes of the text after its marker are the argument: up to a closing bracket
where it is bracketed, and else up to a dot. -/
def argumentSize (body : String) : Nat :=
  if startsWith body "[" then ((find? body "]").map (· + 1)).getD 0
  else (find? body ".").getD body.utf8ByteSize

/-- The argument that is written so. -/
def argumentOf (written : String) : Argument :=
  match written.toList with
  | '[' :: inner =>
    if inner.getLast? = some ']' then ⟨String.ofList inner.dropLast, false⟩ else ⟨written, true⟩
  | _ => ⟨written, true⟩

/-- The argument and what follows it. Without an argument nothing is consumed. -/
def argument? (explicit : Bool) (tail : String) : Checked (Option Argument × String) := do
  if (unitAt? tail 0).any (DirectiveName.opensArgument explicit) then
    let body ← sliceFrom? tail 1
    if 0 < argumentSize body then
      let written ← slice? body 0 (argumentSize body)
      let rest ← sliceFrom? body (argumentSize body)
      return (some (argumentOf written), rest)
    else return (none, tail)
  else return (none, tail)

/-- The name, argument and modifiers that follow an explicit or shorthand name. -/
def directiveTail? (name : String) (explicit : Bool) (implied : List String) (tail : String) :
    Checked DirectiveName := do
  let (arg, rest) ← argument? explicit tail
  return ⟨name, arg, implied ++ DirectiveName.readModifiers rest.toList⟩

/-- Split the written name of a directive. -/
def directiveName? (raw : String) : Checked DirectiveName := do
  if startsWith raw "v-" then
    let body ← sliceFrom? raw 2
    let stop := skipWhile body DirectiveName.isNameChar 0
    let name ← slice? body 0 stop
    let tail ← sliceFrom? body stop
    directiveTail? name true [] tail
  else
    directiveTail? (DirectiveName.ofShorthand (unitsFrom raw 0)) false
      (DirectiveName.impliedModifiers (unitsFrom raw 0)) raw

/-! ## Properties -/

/-- The property with a written name and value. -/
def property? (name : String) (value : Option String) : Checked Property := do
  if Property.isDirective (unitsFrom name 0) then
    let directive ← directiveName? name
    return directive.toProperty ((value.filter (· ≠ "")).map fun value => .expression value false)
  else return .attribute name (value.map .text)

/-- The offset at which a property's name ends. -/
def nameEnd (source : String) (bracketed : Bool) (offset : Nat) : Nat :=
  match _found : unitAt? source offset with
  | none => offset
  | some c =>
    if !bracketed && Property.endsName c (unitsFrom source (offset + 1)) then offset
    else
      nameEnd source (if c = '[' then true else if c = ']' then false else bracketed) (offset + 1)
termination_by source.utf8ByteSize - offset
decreasing_by
  have := lt_of_unitAt? _found
  omega

/-- The value at an offset and the offset after it. A closing quote is passed over if there
is one. -/
def value? (source : String) (offset : Nat) : Checked (String × Nat) := do
  match unitAt? source offset with
  | none => return ("", offset)
  | some c =>
    if c = '"' || c = '\'' then
      let stop := skipWhile source (· != c) (offset + 1)
      let value ← slice? source (offset + 1) stop
      return (value, if stop < source.utf8ByteSize then stop + 1 else stop)
    else
      let stop := skipWhile source (fun d => !isTagBlank d && d != '>') offset
      let value ← slice? source offset stop
      return (value, stop)

/-- The property at an offset, if a name stands there, and the offset after it. -/
def prop? (source : String) (offset : Nat) : Checked (Option (Property × Nat)) := do
  let stop := nameEnd source false offset
  if stop = offset then return none
  else
    let name ← slice? source offset stop
    let sign := skipWhile source isTagBlank stop
    if unitAt? source sign = some '=' then
      let (value, next) ← value? source (skipWhile source isTagBlank (sign + 1))
      let property ← property? name (some value)
      return some (property, next)
    else
      let property ← property? name none
      return some (property, stop)

/-! ## Opening tags -/

/-- One round of the loop over an opening tag: its next part, and the offset after it. -/
def tagPart? (source : String) (offset : Nat) : Checked (TagPart × Nat) := do
  let start := skipWhile source isTagBlank offset
  match unitAt? source start with
  | none => return (.finish false, start)
  | some c =>
    if c = '/' && unitAt? source (start + 1) = some '>' then return (.finish true, start + 2)
    else if c = '>' then return (.finish false, start + 1)
    else if c = '/' then return (.noise, start + 1)
    else
      match ← prop? source start with
      | some (property, next) => return (.property property, next)
      | none => return (.noise, start + 1)

/-- The loop over an opening tag: its properties, whether it closes itself, and the offset
after it. It gives nothing when it is not at its end after `rounds` rounds. -/
def tagTail? (source : String) : (rounds offset : Nat) → Checked (List Property × Bool × Nat)
  | 0, _ => none
  | rounds + 1, offset => do
    match ← tagPart? source offset with
    | (.finish selfClosing, next) => return ([], selfClosing, next)
    | (.property property, next) =>
      let (props, selfClosing, stop) ← tagTail? source rounds next
      return (property :: props, selfClosing, stop)
    | (.noise, next) => tagTail? source rounds next

/-! ## Constructs of the text -/

/-- Whether the byte at an offset is `<` and the next one a letter. -/
def opensTag (source : String) (offset : Nat) : Bool :=
  unitAt? source offset = some '<' && (unitAt? source (offset + 1)).any Char.isAlpha

/-- The comment that begins at an offset. -/
def comment? (source : String) (offset : Nat) : Checked (Option (Token × Nat)) := do
  if unitAt? source offset = some '<' then
    let here ← sliceFrom? source offset
    if startsWith here "<!--" then
      let body ← sliceFrom? source (offset + 4)
      let stop := ((find? body "-->").map (offset + 4 + ·)).getD source.utf8ByteSize
      let content ← slice? source (offset + 4) stop
      return some (.comment content, min (stop + 3) source.utf8ByteSize)
    else return none
  else return none

/-- The closing tag that begins at an offset. -/
def closeTag? (source : String) (offset : Nat) : Checked (Option (Token × Nat)) := do
  if unitAt? source offset = some '<' && unitAt? source (offset + 1) = some '/' then
    let stop := skipWhile source isTagChar (offset + 2)
    let tag ← slice? source (offset + 2) stop
    if tag ≠ "" then
      let bracket := skipWhile source (· != '>') stop
      return some (.closeTag tag, min (bracket + 1) source.utf8ByteSize)
    else return none
  else return none

/-- The opening tag that begins at an offset. -/
def openTag? (source : String) (offset : Nat) : Checked (Option (Token × Nat)) := do
  if opensTag source offset then
    let stop := skipWhile source isTagChar (offset + 1)
    let tag ← slice? source (offset + 1) stop
    let (props, selfClosing, next) ← tagTail? source (source.utf8ByteSize + 1) stop
    return some (.openTag tag props selfClosing, next)
  else return none

/-- The interpolation that begins at an offset, if it ends. -/
def interpolation? (source : String) (offset : Nat) : Checked (Option (Token × Nat)) := do
  let here ← sliceFrom? source offset
  if startsWith here "\x7b\x7b" then
    let body ← sliceFrom? source (offset + 2)
    match find? body "\x7d\x7d" with
    | some size =>
      let content ← slice? source (offset + 2) (offset + 2 + size)
      return some (.interpolation (String.ofList (trim content.toList)), offset + 2 + size + 2)
    | none => return none
  else return none

/-- Whether markup begins at an offset, which may be inside a character. Of the text only
what may follow the marks of an interpolation is cut out. -/
def startsMarkup? (source : String) (offset : Nat) : Checked Bool := do
  if (after? openBraces (unitsFrom source offset)).isSome then
    let body ← sliceFrom? source (offset + 2)
    return (find? body "\x7d\x7d").isSome
  else return Token.startsMarkup (unitsFrom source offset)

/-- The first offset from `offset` on at which markup begins. -/
def textEnd? (source : String) (offset : Nat) : Checked Nat := do
  if offset < source.utf8ByteSize then
    if ← startsMarkup? source offset then return offset
    else textEnd? source (offset + 1)
  else return offset
termination_by source.utf8ByteSize - offset

/-- The text at an offset, which goes on at least over the byte there. -/
def text? (source : String) (offset : Nat) : Checked (Token × Nat) := do
  let stop ← textEnd? source (offset + 1)
  let content ← slice? source offset stop
  return (.text content, stop)

/-- What is found first, if the other is only looked for where nothing is found. -/
def orElse? (found other : Checked (Option (Token × Nat))) : Checked (Option (Token × Nat)) := do
  match ← found with
  | some result => return some result
  | none => other

/-- The markup construct that begins at an offset. -/
def markup? (source : String) (offset : Nat) : Checked (Option (Token × Nat)) :=
  orElse? (comment? source offset) <|
    orElse? (closeTag? source offset) <|
      orElse? (openTag? source offset) (interpolation? source offset)

/-- One round of the loop over the text: the token at an offset and the offset after it. -/
def next? (source : String) (offset : Nat) : Checked (Token × Nat) := do
  match ← markup? source offset with
  | some found => return found
  | none => text? source offset

/-- The loop over the text: all tokens from an offset on. It gives nothing when it is not at
its end after `rounds` rounds. -/
def scanFrom? (source : String) : (rounds offset : Nat) → Checked (List Token)
  | 0, _ => none
  | rounds + 1, offset => do
    if offset < source.utf8ByteSize then
      let (token, next) ← next? source offset
      let tokens ← scanFrom? source rounds next
      return token :: tokens
    else return []

/-- The forest that template text describes. -/
def read? (source : String) : Checked (List Node) :=
  (scanFrom? source (source.utf8ByteSize + 1) 0).map Forest.ofTokens

/-! ## Rounds -/

/-- The offsets at which a round of the loop over the text begins, or the loop ends. -/
inductive Head (source : String) : Nat → Prop where
  | start : Head source 0
  | next {offset next : Nat} {token : Token} : Head source offset →
      offset < source.utf8ByteSize → next? source offset = some (token, next) → Head source next

/-- The offsets at which a round of the loop over an opening tag begins. -/
inductive TagHead (source : String) : Nat → Prop where
  | start {offset : Nat} : Head source offset → opensTag source offset = true →
      TagHead source (skipWhile source isTagChar (offset + 1))
  | next {offset next : Nat} {part : TagPart} : TagHead source offset →
      (∀ selfClosing, part ≠ .finish selfClosing) →
      tagPart? source offset = some (part, next) → TagHead source next

end SingleFile.Markup.ByteScan
